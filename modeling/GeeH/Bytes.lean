import Mathlib.Data.Nat.Digits.Lemmas
import Mathlib.Tactic.Common

/-!
# GeeH.Bytes — byte strings, ranges of keys and `prefix_end`

Keys and values of etcd are byte strings, ordered bytewise (unsigned) and
lexicographically. Models `gh/prefix_end.cpp` and the construction of the
candidate key in the constructor of `election_candidate_impl`.
-/

namespace GeeH

/-- A byte string (`std::string`, protobuf `bytes`). -/
abbrev Bytes := List UInt8

/-- The byte `/` that ends an election prefix. -/
def slash : UInt8 := 0x2F

/-! ## `prefix_end` -/

/-- The loop of `prefix_end`, over the bytes in reverse order: turn the leading
`0xFF`s into `0x00`, increment the first other byte. The flag is `needs_append`. -/
def carry : Bytes → Bytes × Bool
  | [] => ([], true)
  | b :: bs =>
    if b = 0xFF then (0x00 :: (carry bs).1, (carry bs).2) else ((b + 1) :: bs, false)

/-- `gh::prefix_end`: the end of the range of the keys that start with `p`. -/
def prefixEnd (p : Bytes) : Bytes :=
  if (carry p.reverse).2 then (carry p.reverse).1.reverse ++ [0x01]
  else (carry p.reverse).1.reverse

/-- A prefix that does not end in `0xFF` has its last byte incremented. -/
theorem prefixEnd_snoc (p : Bytes) {b : UInt8} (hb : b ≠ 0xFF) :
    prefixEnd (p ++ [b]) = p ++ [b + 1] := by
  simp [prefixEnd, carry, hb]

/-! ## The range of a prefix -/

/-- From a string up to the same with its last byte incremented: the strings that start
with it. -/
theorem range_snoc (p : Bytes) {b : UInt8} (hb : b ≠ 0xFF) (k : Bytes) :
    p ++ [b] ≤ k ∧ k < p ++ [b + 1] ↔ p ++ [b] <+: k := by
  have hsucc : (b + 1).toNat = b.toNat + 1 := by
    have hlt : b.toNat < 255 := by
      have hne : b.toNat ≠ (0xFF : UInt8).toNat := fun h => hb (UInt8.toNat_inj.mp h)
      have hmax : (0xFF : UInt8).toNat = 255 := rfl
      have hbound := b.toNat_lt
      omega
    rw [UInt8.toNat_add, UInt8.toNat_one]
    omega
  -- both ends have `p` in front, so it is taken off byte by byte
  induction p generalizing k with
  | nil =>
    constructor
    · rintro ⟨hle, hlt⟩
      cases k with
      | nil => exact absurd (List.nil_lt_cons b []) hle
      | cons c k =>
        have hhi : c < b + 1 := by simpa [List.cons_lt_cons_iff] using hlt
        have hlo : b ≤ c := by
          rcases List.cons_le_cons_iff.mp hle with hbc | hbc
          · exact UInt8.le_of_lt hbc
          · exact UInt8.le_of_eq hbc.1
        have hbc : b = c := by
          rw [UInt8.lt_iff_toNat_lt] at hhi
          rw [UInt8.le_iff_toNat_le] at hlo
          exact UInt8.toNat_inj.mp (by omega)
        rw [hbc]
        exact ⟨k, rfl⟩
    · rintro ⟨rest, rfl⟩
      constructor
      · exact List.cons_le_cons_iff.mpr (Or.inr ⟨rfl, List.nil_le rest⟩)
      · refine List.cons_lt_cons_iff.mpr (Or.inl ?_)
        rw [UInt8.lt_iff_toNat_lt]
        omega
  | cons a p ih =>
    cases k with
    | nil =>
      constructor
      · rintro ⟨hle, _⟩
        exact absurd (List.nil_lt_cons a _) hle
      · intro hpre
        cases List.prefix_nil.mp hpre
    | cons c k =>
      simp only [List.cons_append, List.cons_le_cons_iff, List.cons_lt_cons_iff,
        List.cons_prefix_cons, ← ih k]
      constructor
      · rintro ⟨hac | ⟨rfl, hle⟩, hca | ⟨heq, hlt⟩⟩
        · exact absurd hac (UInt8.lt_asymm hca)
        · rw [heq] at hac
          exact absurd hac (UInt8.lt_irrefl _)
        · exact absurd hca (UInt8.lt_irrefl _)
        · exact ⟨rfl, hle, hlt⟩
      · rintro ⟨rfl, hle, hlt⟩
        exact ⟨Or.inr ⟨rfl, hle⟩, Or.inr ⟨rfl, hlt⟩⟩

/-- A string of `0xFF`s is carried over as a whole. -/
theorem carry_append {l : Bytes} (h : (carry l).2 = true) :
    l = List.replicate l.length 0xFF ∧ (carry l).1 = List.replicate l.length 0x00 := by
  induction l with
  | nil => exact ⟨rfl, rfl⟩
  | cons b l ih =>
    by_cases hb : b = 0xFF
    · simp only [carry, hb, if_true] at h ⊢
      rcases ih h with ⟨hl, hcarry⟩
      constructor
      · rw [List.length_cons, List.replicate_succ, ← hl]
      · rw [List.length_cons, List.replicate_succ, hcarry]
    · simp [carry, hb] at h

theorem carry_length (l : Bytes) : (carry l).1.length = l.length := by
  induction l with
  | nil => rfl
  | cons b l ih =>
    unfold carry
    split
    · simp [ih]
    · rfl

/-- Where a byte is incremented, the end is behind all the strings that start with `p`. -/
theorem append_lt_carry (p r : Bytes) (h : (carry p.reverse).2 = false) :
    p ++ r < (carry p.reverse).1.reverse := by
  induction p using List.reverseRecOn generalizing r with
  | nil => cases h
  | append_singleton p b ih =>
    rw [List.reverse_append, List.reverse_singleton, List.singleton_append] at h ⊢
    by_cases hb : b = 0xFF
    · simp only [carry, hb, if_true, List.reverse_cons] at h ⊢
      have hlt : p ++ (0xFF :: r) < (carry p.reverse).1.reverse := ih (0xFF :: r) h
      have hlast : (carry p.reverse).1.reverse ++ [] < (carry p.reverse).1.reverse ++ [0x00] :=
        List.append_left_lt (List.nil_lt_cons 0x00 [])
      rw [List.append_nil] at hlast
      rw [List.append_assoc, List.singleton_append]
      exact List.lt_trans hlt hlast
    · simp only [carry, hb, if_false, List.reverse_cons, List.reverse_reverse]
      exact ((range_snoc p hb (p ++ [b] ++ r)).mpr (List.prefix_append _ _)).2

/-- A trailing `0xFF` leaves a trailing `0x00` where a byte before it is incremented. -/
theorem prefixEnd_snoc_max {p : Bytes} (h : (carry p.reverse).2 = false) :
    prefixEnd (p ++ [0xFF]) = prefixEnd p ++ [0x00] := by
  simp [prefixEnd, carry, h]

/-- `prefix_end` bounds exactly the keys that start with `p` if and only if `p` has a last
byte and that byte is not `0xFF`. -/
theorem prefixEnd_exact_iff (p : Bytes) :
    (∀ k, p ≤ k ∧ k < prefixEnd p ↔ p <+: k) ↔ ∃ q b, p = q ++ [b] ∧ b ≠ 0xFF := by
  constructor
  · intro h
    rcases List.eq_nil_or_concat p with rfl | ⟨q, b, rfl⟩
    -- the end of the empty prefix is a key like any other
    · have hlt := ((h [0x01]).mpr (List.nil_prefix)).2
      exact absurd hlt (by decide)
    refine ⟨q, b, List.concat_eq_append, ?_⟩
    rintro rfl
    rw [List.concat_eq_append] at h
    cases hq : (carry q.reverse).2 with
    | false =>
      -- the shorter end, before the `0x00` is appended, is in the range
      have hend : prefixEnd q = (carry q.reverse).1.reverse := by simp [prefixEnd, hq]
      have hlow : q ++ [0xFF] ≤ prefixEnd q := by
        rw [hend]
        exact List.le_of_lt (append_lt_carry q [0xFF] hq)
      have hhigh : prefixEnd q < prefixEnd (q ++ [0xFF]) := by
        rw [prefixEnd_snoc_max hq]
        have hlast : prefixEnd q ++ [] < prefixEnd q ++ [0x00] :=
          List.append_left_lt (List.nil_lt_cons _ _)
        rwa [List.append_nil] at hlast
      have hpre : q ++ [0xFF] <+: prefixEnd q := (h (prefixEnd q)).mp ⟨hlow, hhigh⟩
      have hlen := hpre.length_le
      rw [hend, List.length_reverse, carry_length] at hlen
      simp at hlen
    | true =>
      -- the prefix itself is behind the end
      have hall : (carry (q ++ [0xFF]).reverse).2 = true := by simpa [carry] using hq
      rcases carry_append hall with ⟨hp, hcarry⟩
      have hrep : q ++ [0xFF] = List.replicate (q.length + 1) 0xFF := by
        simpa using congrArg List.reverse hp
      have hlt := ((h (q ++ [0xFF])).mpr (List.prefix_refl _)).2
      rw [prefixEnd, if_pos hall, hcarry, hrep] at hlt
      rw [List.length_reverse, List.length_replicate, List.reverse_replicate, List.replicate_succ,
        List.replicate_succ, List.cons_append] at hlt
      rcases List.cons_lt_cons_iff.mp hlt with hbyte | ⟨hbyte, _⟩
      · exact absurd hbyte (by decide)
      · exact absurd hbyte (by decide)
  · rintro ⟨q, b, rfl, hb⟩ k
    rw [prefixEnd_snoc q hb]
    exact range_snoc q hb k

/-- A trailing `0xFF` lets in a key without the prefix. -/
theorem prefixEnd_overshoots : ∃ p k : Bytes, (∃ b ∈ p, b ≠ 0xFF) ∧ p ≤ k ∧ k < prefixEnd p ∧
    ¬ p <+: k :=
  ⟨[0x41, 0xFF], [0x42], by decide, by decide, by decide, by decide⟩

/-! ## Ranges of keys -/

/-- The keys of the half-open range `[key, rangeEnd)`; an empty `rangeEnd` names
the single key. -/
def InRange (key rangeEnd k : Bytes) : Prop :=
  if rangeEnd = [] then k = key else key ≤ k ∧ k < rangeEnd

instance (key rangeEnd k : Bytes) : Decidable (InRange key rangeEnd k) :=
  inferInstanceAs (Decidable (if rangeEnd = [] then k = key else key ≤ k ∧ k < rangeEnd))

@[simp] theorem inRange_nil (key k : Bytes) : InRange key [] k ↔ k = key := by
  simp [InRange]

/-- `election_prefix_`: the election name and a slash. -/
def electionPrefix (name : Bytes) : Bytes := name ++ [slash]

theorem prefixEnd_electionPrefix (name : Bytes) :
    prefixEnd (electionPrefix name) = name ++ [0x30] :=
  prefixEnd_snoc name (by decide)

/-- The range of an election: what its candidates query and its observers watch. -/
def InElection (name k : Bytes) : Prop :=
  InRange (electionPrefix name) (prefixEnd (electionPrefix name)) k

instance (name k : Bytes) : Decidable (InElection name k) :=
  inferInstanceAs (Decidable (InRange _ _ k))

/-- The range of an election holds exactly the keys under its prefix. -/
theorem inElection_iff (name k : Bytes) : InElection name k ↔ electionPrefix name <+: k := by
  have hne : name ++ [(0x30 : UInt8)] ≠ [] := by simp
  rw [InElection, prefixEnd_electionPrefix, InRange, if_neg hne]
  exact range_snoc name (by decide) k

/-- Every key under the prefix of an election is in its range. -/
theorem inElection_append (name k : Bytes) : InElection name (electionPrefix name ++ k) :=
  (inElection_iff name _).mpr (List.prefix_append _ _)

/-! ## Hexadecimal lease ids -/

/-- The character of a hexadecimal digit, in lower case as `std::hex` prints it. -/
def hexDigit (d : Nat) : UInt8 :=
  if d < 10 then UInt8.ofNat (48 + d) else UInt8.ofNat (87 + d)

theorem hexDigit_inj : ∀ a < 16, ∀ b < 16, hexDigit a = hexDigit b → a = b := by
  decide

/-- `os << std::hex << lease_id`: no leading zeros, and `0` for zero. -/
def hex (n : UInt64) : Bytes :=
  if n = 0 then [hexDigit 0] else (Nat.digits 16 n.toNat).reverse.map hexDigit

theorem hexDigits_inj : ∀ l₁ l₂ : List Nat, (∀ d ∈ l₁, d < 16) → (∀ d ∈ l₂, d < 16) →
    l₁.map hexDigit = l₂.map hexDigit → l₁ = l₂
  | [], [], _, _, _ => rfl
  | [], _ :: _, _, _, h => by simp at h
  | _ :: _, [], _, _, h => by simp at h
  | a :: l₁, b :: l₂, h₁, h₂, h => by
      simp only [List.map_cons, List.cons.injEq] at h
      have hab := hexDigit_inj a (h₁ a (by simp)) b (h₂ b (by simp)) h.1
      have htl := hexDigits_inj l₁ l₂ (fun d hd => h₁ d (by simp [hd]))
        (fun d hd => h₂ d (by simp [hd])) h.2
      rw [hab, htl]

/-- The digits of a lease id other than zero never spell `0`. -/
theorem digits_ne_zero {n : UInt64} (hn : n ≠ 0) : (Nat.digits 16 n.toNat).reverse ≠ [0] := by
  intro h
  have hd : Nat.digits 16 n.toNat = [0] := by simpa using congrArg List.reverse h
  have hz : n.toNat = 0 := by
    have := congrArg (Nat.ofDigits 16) hd
    simpa [Nat.ofDigits_digits] using this
  exact hn (UInt64.toNat_inj.mp hz)

theorem hex_injective : Function.Injective hex := by
  intro m n h
  have hlt : ∀ k : UInt64, ∀ d ∈ (Nat.digits 16 k.toNat).reverse, d < 16 := fun k d hd =>
    Nat.digits_lt_base (by decide) (List.mem_reverse.mp hd)
  have hzero : ∀ d ∈ [0], d < 16 := by simp
  unfold hex at h
  split at h <;> split at h
  · simp_all
  · rename_i _ hn
    have := hexDigits_inj [0] _ hzero (hlt n) (by simpa using h)
    exact absurd this.symm (digits_ne_zero hn)
  · rename_i hm _
    have := hexDigits_inj _ [0] (hlt m) hzero (by simpa using h)
    exact absurd this (digits_ne_zero hm)
  · have hrev := hexDigits_inj _ _ (hlt m) (hlt n) h
    have hdig := List.reverse_injective hrev
    exact UInt64.toNat_inj.mp (Nat.digits_inj_iff.mp hdig)

/-- `candidate_key_`: the election prefix and the lease id in hexadecimal. -/
def candidateKey (name : Bytes) (leaseId : UInt64) : Bytes :=
  electionPrefix name ++ hex leaseId

theorem candidateKey_inElection (name : Bytes) (leaseId : UInt64) :
    InElection name (candidateKey name leaseId) :=
  inElection_append name (hex leaseId)

/-- Within one election the key determines the lease. -/
theorem candidateKey_lease_inj (name : Bytes) {l₁ l₂ : UInt64}
    (h : candidateKey name l₁ = candidateKey name l₂) : l₁ = l₂ :=
  hex_injective (List.append_cancel_left h)

/-- No slash in a lease id. -/
theorem slash_not_mem_hex (n : UInt64) : slash ∉ hex n := by
  have hdigit : ∀ d < 16, hexDigit d ≠ slash := by decide
  unfold hex
  split
  · decide
  · intro hmem
    rcases List.mem_map.mp hmem with ⟨d, hd, heq⟩
    exact hdigit d (Nat.digits_lt_base (by decide) (List.mem_reverse.mp hd)) heq

/-- A key is under the prefix of an election if it belongs to that election, or to one whose
own name is under that prefix. -/
theorem electionPrefix_prefix_candidateKey (n₁ n₂ : Bytes) (l : UInt64) :
    electionPrefix n₁ <+: candidateKey n₂ l ↔ n₂ = n₁ ∨ electionPrefix n₁ <+: n₂ := by
  constructor
  · intro h
    have hown : electionPrefix n₂ <+: candidateKey n₂ l := List.prefix_append _ _
    rcases List.prefix_or_prefix_of_prefix h hown with h₁₂ | h₂₁
    · rcases List.prefix_concat_iff.mp h₁₂ with heq | hpre
      · exact Or.inl (List.append_cancel_right heq).symm
      · exact Or.inr hpre
    · rcases List.prefix_concat_iff.mp h₂₁ with heq | ⟨rest, rfl⟩
      · exact Or.inl (List.append_cancel_right heq)
      -- the slash that ends the longer prefix would be in the lease id
      · have hrest : rest ++ [slash] <+: hex l := by
          have h' : electionPrefix n₂ ++ (rest ++ [slash]) <+: electionPrefix n₂ ++ hex l := by
            rw [← List.append_assoc]
            exact h
          exact (List.prefix_append_right_inj _).mp h'
        exact absurd (hrest.subset (by simp)) (slash_not_mem_hex l)
  · rintro (rfl | hpre)
    · exact List.prefix_append _ _
    · have hkey : n₂ <+: candidateKey n₂ l := by
        rw [candidateKey, electionPrefix, List.append_assoc]
        exact List.prefix_append _ _
      exact hpre.trans hkey

/-- A candidate is in the range of its own election, and of those whose name and slash its
election's name starts with, and of no other; and its key tells its election and its lease. -/
theorem elections_interfere :
    (∀ (n₁ n₂ : Bytes) (l₂ : UInt64), InElection n₁ (candidateKey n₂ l₂) ↔
      n₂ = n₁ ∨ electionPrefix n₁ <+: n₂) ∧
    ∀ (n₁ n₂ : Bytes) (l₁ l₂ : UInt64), candidateKey n₁ l₁ = candidateKey n₂ l₂ →
      n₁ = n₂ ∧ l₁ = l₂ := by
  refine ⟨?_, ?_⟩
  · intro n₁ n₂ l₂
    rw [inElection_iff, electionPrefix_prefix_candidateKey]
  · intro n₁ n₂ l₁ l₂ h
    have hn : n₁ = n₂ := by
      have h₁ := (electionPrefix_prefix_candidateKey n₁ n₂ l₂).mp (h ▸ List.prefix_append _ _)
      have h₂ := (electionPrefix_prefix_candidateKey n₂ n₁ l₁).mp (h ▸ List.prefix_append _ _)
      rcases h₁ with heq | hpre₁
      · exact heq.symm
      · rcases h₂ with heq | hpre₂
        · exact heq
        -- neither name is longer than the other
        · have hlen₁ := hpre₁.length_le
          have hlen₂ := hpre₂.length_le
          simp only [electionPrefix, List.length_append, List.length_singleton] at hlen₁ hlen₂
          omega
    subst hn
    exact ⟨rfl, candidateKey_lease_inj n₁ h⟩

example : candidateKey [0x65] 0x1f0 = [0x65, 0x2F, 0x31, 0x66, 0x30] := by decide

end GeeH
