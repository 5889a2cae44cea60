import HydraSAT.Lib.Decimal

/-!
# Integers in a text

A numeral is a nonempty run of digits with an optional sign.  `integer` reads a word that is one,
`leadingInt` the longest one that a text begins with, and `intText` writes one.

* `leadingInt_append`: a numeral in front of a text that does not go on with a digit;
* `integer_intText`: what is written is read again.
-/

namespace HydraSAT.Lib

/-- The value of a word that is a numeral. -/
def integer : List Char → Option ℤ
  | '-' :: cs => (decimal cs).map fun n : ℕ => -(n : ℤ)
  | '+' :: cs => (decimal cs).map fun n : ℕ => (n : ℤ)
  | cs => (decimal cs).map fun n : ℕ => (n : ℤ)

/-- The number that a run of digits at the beginning of the text gives, and the rest of the text. -/
def leadingNat (cs : List Char) : Option (ℕ × List Char) :=
  (decimal (cs.takeWhile isDigit)).map fun n => (n, cs.dropWhile isDigit)

/-- The integer at the beginning of the text, and the rest of the text. -/
def leadingInt : List Char → Option (ℤ × List Char)
  | '-' :: cs => (leadingNat cs).map fun p => (-(p.1 : ℤ), p.2)
  | '+' :: cs => (leadingNat cs).map fun p => ((p.1 : ℤ), p.2)
  | cs => (leadingNat cs).map fun p => ((p.1 : ℤ), p.2)

/-- The decimal text of an integer. -/
def intText (z : ℤ) : List Char :=
  if z < 0 then '-' :: Nat.toDigits 10 z.natAbs else Nat.toDigits 10 z.natAbs

theorem integer_of_digit {c : Char} {cs : List Char} (hc : isDigit c = true) :
    integer (c :: cs) = (decimal (c :: cs)).map fun n : ℕ => (n : ℤ) := by
  unfold integer
  split
  · rename_i heq
    exact absurd ((List.cons.inj heq).1 ▸ hc) (by decide)
  · rename_i heq
    exact absurd ((List.cons.inj heq).1 ▸ hc) (by decide)
  · rfl

/-- A numeral is its sign and its digits. -/
theorem integer_cases {w : List Char} {v : ℤ} (h : integer w = some v) :
    (∃ cs n, w = '-' :: cs ∧ decimal cs = some n ∧ v = -(n : ℤ)) ∨
      (∃ cs n, w = '+' :: cs ∧ decimal cs = some n ∧ v = n) ∨
      ∃ c cs n, w = c :: cs ∧ isDigit c = true ∧ decimal (c :: cs) = some n ∧ v = n := by
  unfold integer at h
  split at h
  · rename_i cs
    obtain ⟨n, hn, rfl⟩ := Option.map_eq_some_iff.mp h
    exact .inl ⟨cs, n, rfl, hn, rfl⟩
  · rename_i cs
    obtain ⟨n, hn, rfl⟩ := Option.map_eq_some_iff.mp h
    exact .inr (.inl ⟨cs, n, rfl, hn, rfl⟩)
  · obtain ⟨n, hn, rfl⟩ := Option.map_eq_some_iff.mp h
    obtain ⟨hne, hall⟩ := decimal_isSome.mp (Option.isSome_iff_exists.mpr ⟨n, hn⟩)
    obtain ⟨c, cs, rfl⟩ := List.exists_cons_of_ne_nil hne
    exact .inr (.inr ⟨c, cs, n, rfl, hall c List.mem_cons_self, hn, rfl⟩)

/-- The characters of a numeral. -/
theorem mem_integer {w : List Char} {v : ℤ} (h : integer w = some v) {c : Char} (hc : c ∈ w) :
    c = '-' ∨ c = '+' ∨ isDigit c = true := by
  have hdigits : ∀ cs n, decimal cs = some n → ∀ c ∈ cs, isDigit c = true := fun cs n hn =>
    (decimal_isSome.mp (Option.isSome_iff_exists.mpr ⟨n, hn⟩)).2
  rcases integer_cases h with ⟨cs, n, rfl, hn, -⟩ | ⟨cs, n, rfl, hn, -⟩ | ⟨d, cs, n, rfl, -, hn, -⟩
  · exact (List.mem_cons.mp hc).imp id fun hc => .inr (hdigits cs n hn c hc)
  · exact .inr ((List.mem_cons.mp hc).imp id (hdigits cs n hn c))
  · exact .inr (.inr (hdigits _ n hn c hc))

theorem integer_ne_nil {w : List Char} {v : ℤ} (h : integer w = some v) : w ≠ [] := by
  rintro rfl
  exact nomatch h

theorem leadingNat_append {cs rest : List Char} {n : ℕ} (h : decimal cs = some n)
    (hrest : ∀ c ∈ rest.head?, isDigit c = false) : leadingNat (cs ++ rest) = some (n, rest) := by
  have hall := (decimal_isSome.mp (Option.isSome_iff_exists.mpr ⟨n, h⟩)).2
  have htake : (cs ++ rest).takeWhile isDigit = cs := by
    rw [List.takeWhile_append_of_pos hall]
    cases rest with
    | nil => simp
    | cons c rest => simp [hrest c rfl]
  have hdrop : (cs ++ rest).dropWhile isDigit = rest := by
    rw [List.dropWhile_append_of_pos hall]
    cases rest with
    | nil => rfl
    | cons c rest => simp [hrest c rfl]
  rw [leadingNat, htake, hdrop, h]
  rfl

/-- **A numeral in front of a text** that does not go on with a digit. -/
theorem leadingInt_append {w rest : List Char} {v : ℤ} (h : integer w = some v)
    (hrest : ∀ c ∈ rest.head?, isDigit c = false) : leadingInt (w ++ rest) = some (v, rest) := by
  rcases integer_cases h with ⟨cs, n, rfl, hn, rfl⟩ | ⟨cs, n, rfl, hn, rfl⟩ | ⟨c, cs, n, rfl, hc, hn, rfl⟩
  · show (leadingNat (cs ++ rest)).map _ = _
    rw [leadingNat_append hn hrest]
    rfl
  · show (leadingNat (cs ++ rest)).map _ = _
    rw [leadingNat_append hn hrest]
    rfl
  · have hread := leadingNat_append hn hrest
    rw [List.cons_append] at hread ⊢
    unfold leadingInt
    split
    · rename_i heq
      exact absurd ((List.cons.inj heq).1 ▸ hc) (by decide)
    · rename_i heq
      exact absurd ((List.cons.inj heq).1 ▸ hc) (by decide)
    · rw [hread]
      rfl

theorem decimal_toDigits (n : ℕ) : decimal (Nat.toDigits 10 n) = some n := by
  have hall : (Nat.toDigits 10 n).all isDigit = true := by
    refine List.all_eq_true.mpr fun c hc => ?_
    exact Nat.isDigit_of_mem_toDigits (by decide) (by decide) hc
  unfold decimal
  rw [if_pos ⟨Nat.toDigits_ne_nil, hall⟩]
  exact congrArg some Nat.ofDigitChars_ten_toDigits

/-- **What is written is read again.** -/
theorem integer_intText (z : ℤ) : integer (intText z) = some z := by
  unfold intText
  by_cases hz : z < 0
  · rw [if_pos hz]
    show (decimal (Nat.toDigits 10 z.natAbs)).map _ = _
    rw [decimal_toDigits, Option.map_some]
    congr 1
    omega
  · rw [if_neg hz]
    have hread := decimal_toDigits z.natAbs
    obtain ⟨hne, hall⟩ := decimal_isSome.mp (Option.isSome_iff_exists.mpr ⟨_, hread⟩)
    obtain ⟨c, cs, hcs⟩ := List.exists_cons_of_ne_nil hne
    rw [hcs] at hread hall ⊢
    rw [integer_of_digit (hall c List.mem_cons_self), hread, Option.map_some]
    congr 1
    omega

end HydraSAT.Lib
