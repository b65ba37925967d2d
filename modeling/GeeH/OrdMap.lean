import Mathlib.Data.List.Basic
import Mathlib.Order.Lattice

/-!
# GeeH.OrdMap — finite maps with ordered keys

`std::map`: a list of entries with strictly increasing keys, so that the first
entry of the list is the one with the least key. The order is part of the
type. A map is known by its lookups (`find?_insert`, `find?_erase`), and its
first entry is the least key that is present (`first?_eq_some`).
-/

namespace GeeH

/-- A finite map with ordered keys. -/
structure OrdMap (κ : Type*) [LinearOrder κ] (V : Type*) where
  entries : List (κ × V)
  sorted : entries.Pairwise fun a b => a.1 < b.1
deriving DecidableEq

namespace OrdMap

variable {κ : Type*} [LinearOrder κ] {V : Type*}

/-! ## Lists of entries -/

/-- The value at a key. -/
def lookup (k : κ) (l : List (κ × V)) : Option V := (l.find? fun p => p.1 = k).map (·.2)

/-- Insert an entry at its place, or replace the one with its key. -/
def insertEntry (k : κ) (v : V) : List (κ × V) → List (κ × V)
  | [] => [(k, v)]
  | p :: l =>
    if k < p.1 then (k, v) :: p :: l
    else if k = p.1 then (k, v) :: l
    else p :: insertEntry k v l

theorem lookup_cons (k : κ) (p : κ × V) (l : List (κ × V)) :
    lookup k (p :: l) = if p.1 = k then some p.2 else lookup k l := by
  unfold lookup
  by_cases h : p.1 = k <;> simp [h]

theorem lookup_insertEntry (k k' : κ) (v : V) (l : List (κ × V)) :
    lookup k' (insertEntry k v l) = if k' = k then some v else lookup k' l := by
  induction l with
  | nil =>
    by_cases h : k' = k
    · simp [insertEntry, lookup, h]
    · have h' : ¬ k = k' := fun heq => h heq.symm
      simp [insertEntry, lookup, h, h']
  | cons p l ih =>
    unfold insertEntry
    by_cases hlt : k < p.1
    · rw [if_pos hlt, lookup_cons]
      by_cases h : k = k'
      · simp [h]
      · have h' : ¬ k' = k := fun heq => h heq.symm
        simp [h, h']
    · rw [if_neg hlt]
      by_cases heq : k = p.1
      -- the entry with the key is replaced
      · rw [if_pos heq, lookup_cons, lookup_cons]
        by_cases h : k = k'
        · simp [h]
        · have h' : ¬ k' = k := fun heq' => h heq'.symm
          have h'' : ¬ p.1 = k' := fun heq' => h (heq.trans heq')
          simp [h, h', h'']
      · rw [if_neg heq, lookup_cons, lookup_cons, ih]
        by_cases h : p.1 = k'
        · have h' : ¬ k' = k := fun heq' => heq (heq'.symm.trans h.symm)
          simp [h, h']
        · simp [h]

theorem mem_insertEntry {k : κ} {v : V} {l : List (κ × V)} {p : κ × V}
    (h : p ∈ insertEntry k v l) : p = (k, v) ∨ p ∈ l := by
  induction l with
  | nil =>
    left
    simpa [insertEntry] using h
  | cons q l ih =>
    unfold insertEntry at h
    split at h
    · rcases List.mem_cons.mp h with rfl | h
      · exact Or.inl rfl
      · exact Or.inr h
    · split at h
      · rcases List.mem_cons.mp h with rfl | h
        · exact Or.inl rfl
        · exact Or.inr (List.mem_cons_of_mem _ h)
      · rcases List.mem_cons.mp h with rfl | h
        · exact Or.inr List.mem_cons_self
        · rcases ih h with rfl | h
          · exact Or.inl rfl
          · exact Or.inr (List.mem_cons_of_mem _ h)

theorem sorted_insertEntry (k : κ) (v : V) {l : List (κ × V)}
    (h : l.Pairwise fun a b => a.1 < b.1) :
    (insertEntry k v l).Pairwise fun a b => a.1 < b.1 := by
  induction l with
  | nil => simp [insertEntry]
  | cons p l ih =>
    have hp := List.pairwise_cons.mp h
    unfold insertEntry
    split
    · rename_i hlt
      refine List.pairwise_cons.mpr ⟨?_, h⟩
      intro q hq
      rcases List.mem_cons.mp hq with rfl | hq
      · exact hlt
      · exact hlt.trans (hp.1 q hq)
    · rename_i hlt
      split
      · rename_i heq
        refine List.pairwise_cons.mpr ⟨?_, hp.2⟩
        intro q hq
        show k < q.1
        rw [heq]
        exact hp.1 q hq
      · rename_i hne
        refine List.pairwise_cons.mpr ⟨?_, ih hp.2⟩
        intro q hq
        rcases mem_insertEntry hq with rfl | hq
        · exact lt_of_le_of_ne (not_lt.mp hlt) (fun heq => hne heq.symm)
        · exact hp.1 q hq

theorem lookup_filter_ne (k k' : κ) (l : List (κ × V)) :
    lookup k' (l.filter fun p => p.1 ≠ k) = if k' = k then none else lookup k' l := by
  induction l with
  | nil => simp [lookup]
  | cons p l ih =>
    by_cases hp : p.1 = k
    · rw [List.filter_cons_of_neg (by simp [hp]), ih, lookup_cons]
      by_cases h : k' = k
      · simp [h]
      · have h' : ¬ p.1 = k' := fun heq => h (heq.symm.trans hp)
        simp [h, h']
    · rw [List.filter_cons_of_pos (by simp [hp]), lookup_cons, lookup_cons, ih]
      by_cases h : p.1 = k'
      · have h' : ¬ k' = k := fun heq => hp (h.trans heq)
        simp [h, h']
      · simp [h]

/-! ## Maps -/

/-- The empty map. -/
def empty : OrdMap κ V := ⟨[], List.Pairwise.nil⟩

instance : EmptyCollection (OrdMap κ V) := ⟨empty⟩

/-- `find`: the value at a key. -/
def find? (m : OrdMap κ V) (k : κ) : Option V := lookup k m.entries

/-- Insert, or replace the value at the key. -/
def insert (m : OrdMap κ V) (k : κ) (v : V) : OrdMap κ V :=
  ⟨insertEntry k v m.entries, sorted_insertEntry k v m.sorted⟩

/-- `erase`. -/
def erase (m : OrdMap κ V) (k : κ) : OrdMap κ V :=
  ⟨m.entries.filter fun p => p.1 ≠ k, m.sorted.sublist List.filter_sublist⟩

/-- `begin`: the entry with the least key. -/
def first? (m : OrdMap κ V) : Option (κ × V) := m.entries.head?

@[simp] theorem find?_empty (k : κ) : (∅ : OrdMap κ V).find? k = none := rfl

@[simp] theorem first?_empty : (∅ : OrdMap κ V).first? = none := rfl

theorem find?_insert (m : OrdMap κ V) (k k' : κ) (v : V) :
    (m.insert k v).find? k' = if k' = k then some v else m.find? k' :=
  lookup_insertEntry k k' v m.entries

theorem find?_erase (m : OrdMap κ V) (k k' : κ) :
    (m.erase k).find? k' = if k' = k then none else m.find? k' :=
  lookup_filter_ne k k' m.entries

/-- In a sorted list every entry is found under its key. -/
theorem lookup_eq_some {l : List (κ × V)} (h : l.Pairwise fun a b => a.1 < b.1) {k : κ} {v : V} :
    lookup k l = some v ↔ (k, v) ∈ l := by
  induction l with
  | nil => simp [lookup]
  | cons p l ih =>
    have hp := List.pairwise_cons.mp h
    rw [lookup_cons]
    by_cases hk : p.1 = k
    · rw [if_pos hk]
      constructor
      · intro hv
        have hpv : p = (k, v) := Prod.ext hk (Option.some.inj hv)
        rw [hpv]
        exact List.mem_cons_self
      · intro hmem
        rcases List.mem_cons.mp hmem with rfl | hmem
        · rfl
        · have hlt := hp.1 _ hmem
          exact absurd hlt (by rw [hk]; exact lt_irrefl k)
    · rw [if_neg hk, ih hp.2]
      constructor
      · exact List.mem_cons_of_mem _
      · intro hmem
        rcases List.mem_cons.mp hmem with rfl | hmem
        · exact absurd rfl hk
        · exact hmem

/-- The first entry is the one with the least key that is present. -/
theorem first?_eq_some {m : OrdMap κ V} {k : κ} {v : V} :
    m.first? = some (k, v) ↔ m.find? k = some v ∧ ∀ k' v', m.find? k' = some v' → k ≤ k' := by
  rcases m with ⟨l, hl⟩
  simp only [first?, find?]
  constructor
  · intro hhead
    cases l with
    | nil => cases hhead
    | cons p l =>
      obtain rfl : p = (k, v) := by simpa using hhead
      refine ⟨(lookup_eq_some hl).mpr List.mem_cons_self, ?_⟩
      intro k' v' hfind
      rcases List.mem_cons.mp ((lookup_eq_some hl).mp hfind) with heq | hmem
      · exact le_of_eq (congrArg Prod.fst heq).symm
      · exact le_of_lt ((List.pairwise_cons.mp hl).1 _ hmem)
  · rintro ⟨hfind, hleast⟩
    cases l with
    | nil => cases hfind
    | cons p l =>
      have hp := hleast p.1 p.2 ((lookup_eq_some hl).mpr List.mem_cons_self)
      rcases List.mem_cons.mp ((lookup_eq_some hl).mp hfind) with heq | hmem
      · rw [heq]
        rfl
      · exact absurd ((List.pairwise_cons.mp hl).1 _ hmem) (not_lt.mpr hp)

theorem first?_eq_none {m : OrdMap κ V} : m.first? = none ↔ ∀ k, m.find? k = none := by
  rcases m with ⟨l, hl⟩
  simp only [first?, find?]
  constructor
  · intro hhead k
    rw [List.head?_eq_none_iff.mp hhead]
    rfl
  · intro hfind
    cases l with
    | nil => rfl
    | cons p l =>
      have hp := (lookup_eq_some hl).mpr (List.mem_cons_self (a := p) (l := l))
      rw [hfind p.1] at hp
      cases hp

theorem first?_insert (m : OrdMap κ V) (k : κ) (v : V) :
    (m.insert k v).first? =
      match m.first? with
      | none => some (k, v)
      | some (k₀, v₀) => if k ≤ k₀ then some (k, v) else some (k₀, v₀) := by
  cases hfirst : m.first? with
  | none =>
    refine first?_eq_some.mpr ⟨by simp [find?_insert], ?_⟩
    intro k' v' hfind
    rw [find?_insert, first?_eq_none.mp hfirst k'] at hfind
    split at hfind
    · exact le_of_eq (Eq.symm ‹_›)
    · cases hfind
  | some p =>
    rcases p with ⟨k₀, v₀⟩
    rcases first?_eq_some.mp hfirst with ⟨hfound, hleast⟩
    show (m.insert k v).first? = if k ≤ k₀ then some (k, v) else some (k₀, v₀)
    split
    · rename_i hle
      refine first?_eq_some.mpr ⟨by simp [find?_insert], ?_⟩
      intro k' v' hfind
      rw [find?_insert] at hfind
      split at hfind
      · exact le_of_eq (Eq.symm ‹_›)
      · exact hle.trans (hleast k' v' hfind)
    · rename_i hle
      have hne : ¬ k₀ = k := fun heq => hle (le_of_eq heq.symm)
      refine first?_eq_some.mpr ⟨by rw [find?_insert, if_neg hne, hfound], ?_⟩
      intro k' v' hfind
      rw [find?_insert] at hfind
      split at hfind
      · rename_i heq
        rw [heq]
        exact le_of_lt (not_le.mp hle)
      · exact hleast k' v' hfind

/-- Erasing an entry other than the first one leaves the first one. -/
theorem first?_erase {m : OrdMap κ V} {k k₀ : κ} {v₀ : V} (hfirst : m.first? = some (k₀, v₀))
    (hne : k₀ ≠ k) : (m.erase k).first? = some (k₀, v₀) := by
  rcases first?_eq_some.mp hfirst with ⟨hfound, hleast⟩
  refine first?_eq_some.mpr ⟨by rw [find?_erase, if_neg hne, hfound], ?_⟩
  intro k' v' hfind
  rw [find?_erase] at hfind
  split at hfind
  · cases hfind
  · exact hleast k' v' hfind

/-! ## Keys -/

/-- The keys, from `begin()` to `end()`. A set is a map of which only the keys matter. -/
def keys (m : OrdMap κ V) : List κ := m.entries.map Prod.fst

theorem keys_sorted (m : OrdMap κ V) : m.keys.Pairwise (· < ·) :=
  List.pairwise_map.mpr m.sorted

theorem keys_nodup (m : OrdMap κ V) : m.keys.Nodup :=
  m.keys_sorted.imp ne_of_lt

theorem mem_keys {m : OrdMap κ V} {k : κ} : k ∈ m.keys ↔ ∃ v, m.find? k = some v := by
  constructor
  · intro h
    rcases List.mem_map.mp h with ⟨⟨_, v⟩, hp, rfl⟩
    exact ⟨v, (lookup_eq_some m.sorted).mpr hp⟩
  · rintro ⟨v, h⟩
    exact List.mem_map.mpr ⟨(k, v), (lookup_eq_some m.sorted).mp h, rfl⟩

theorem mem_keys_insert (m : OrdMap κ V) (k k' : κ) (v : V) :
    k' ∈ (m.insert k v).keys ↔ k' = k ∨ k' ∈ m.keys := by
  rw [mem_keys, mem_keys, find?_insert]
  by_cases h : k' = k
  · simp [h]
  · simp [h]

end OrdMap

end GeeH
