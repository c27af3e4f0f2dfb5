import Mathlib.Data.Nat.Digits.Defs
import Mathlib.Tactic.Common

/-!
# Numbers in a text

`strtol` takes blanks, a sign and decimal digits from the front of a text.
`readInteger` is what it finds there; `readInteger_text` and `readInteger_some`
say that it finds exactly the numerals a text starts with.
-/

namespace TorrentClient

def isSpace (c : UInt8) : Bool := c = 32 ∨ 9 ≤ c ∧ c ≤ 13

def isDigit (c : UInt8) : Bool := 48 ≤ c ∧ c ≤ 57

def digitsValue (digits : List UInt8) : Nat :=
  digits.foldl (fun n c => n * 10 + (c.toNat - 48)) 0

/-- A plus or a minus at the front of a text. -/
def signOf (text : List UInt8) : List UInt8 := (text.take 1).filter fun c => c = 43 ∨ c = 45

/-- The value of the number a text starts with, and where it ends. -/
def readInteger (text : List UInt8) : Option (Int × Nat) :=
  let blanks := text.takeWhile isSpace
  let signed := text.dropWhile isSpace
  let sign := signOf signed
  let digits := (signed.drop sign.length).takeWhile isDigit
  if digits = [] then none
  else
    some (if sign = [45] then -digitsValue digits else digitsValue digits,
      blanks.length + sign.length + digits.length)

/-- A `long` holds the value, or the nearest one it can hold. -/
def strtol (text : List UInt8) : Int × Nat :=
  match readInteger text with
  | none => (0, 0)
  | some (value, stop) => (max (-2 ^ 63) (min value (2 ^ 63 - 1)), stop)

/-- The texts that are numbers as a whole. -/
structure Numeral where
  blanks : List UInt8
  sign : List UInt8
  digits : List UInt8
  blanks_space : ∀ c ∈ blanks, isSpace c
  sign_eq : sign = [] ∨ sign = [43] ∨ sign = [45]
  digits_ne : digits ≠ []
  digits_digit : ∀ c ∈ digits, isDigit c

namespace Numeral

def text (n : Numeral) : List UInt8 := n.blanks ++ n.sign ++ n.digits

def value (n : Numeral) : Int :=
  if n.sign = [45] then -digitsValue n.digits else digitsValue n.digits

end Numeral

theorem not_space_of_digit {c : UInt8} (h : isDigit c) : ¬ isSpace c := by
  simp only [isDigit, isSpace, decide_eq_true_eq, UInt8.le_iff_toNat_le, ← UInt8.toNat_inj] at *
  simp only [UInt8.reduceToNat] at *
  omega

theorem not_sign_of_digit {c : UInt8} (h : isDigit c) : c ≠ 43 ∧ c ≠ 45 := by
  simp only [isDigit, decide_eq_true_eq, UInt8.le_iff_toNat_le, ne_eq, ← UInt8.toNat_inj] at *
  simp only [UInt8.reduceToNat] at *
  omega

/-- What a run of digits leaves does not start with one. -/
def StopsDigits (rest : List UInt8) : Prop := ∀ c ∈ rest.head?, ¬ isDigit c

theorem takeWhile_append_of_stop {p : UInt8 → Bool} {front rest : List UInt8}
    (all : ∀ c ∈ front, p c) (stop : ∀ c ∈ rest.head?, ¬ p c) :
    (front ++ rest).takeWhile p = front ∧ (front ++ rest).dropWhile p = rest := by
  rw [List.takeWhile_append_of_pos all, List.dropWhile_append_of_pos all]
  cases rest with
  | nil => exact ⟨List.append_nil _, rfl⟩
  | cons c rest =>
    have other : ¬ p c := stop c rfl
    rw [List.takeWhile_cons_of_neg other, List.dropWhile_cons_of_neg other]
    exact ⟨List.append_nil _, rfl⟩

theorem signOf_append (text : List UInt8) :
    signOf text ++ text.drop (signOf text).length = text := by
  cases text with
  | nil => rfl
  | cons c text =>
    by_cases signed : c = 43 ∨ c = 45
    · simp [signOf, signed]
    · simp [signOf, signed]

theorem signOf_eq (text : List UInt8) :
    signOf text = [] ∨ signOf text = [43] ∨ signOf text = [45] := by
  cases text with
  | nil => exact Or.inl rfl
  | cons c text =>
    by_cases plus : c = 43
    · subst plus; exact Or.inr (Or.inl rfl)
    · by_cases minus : c = 45
      · subst minus; exact Or.inr (Or.inr rfl)
      · exact Or.inl (by simp [signOf, plus, minus])

theorem signOf_unsigned {sign : List UInt8} (h : sign = [] ∨ sign = [43] ∨ sign = [45])
    {d : UInt8} (digit : isDigit d) (rest : List UInt8) : signOf (sign ++ d :: rest) = sign := by
  obtain ⟨noPlus, noMinus⟩ := not_sign_of_digit digit
  rcases h with rfl | rfl | rfl
  · simp [signOf, noPlus, noMinus]
  · rfl
  · rfl

theorem readInteger_text (n : Numeral) {rest : List UInt8} (stops : StopsDigits rest) :
    readInteger (n.text ++ rest) = some (n.value, n.text.length) := by
  obtain ⟨blanks, sign, digits, space, sign_eq, ne, all⟩ := n
  obtain ⟨d, ds, rfl⟩ := List.exists_cons_of_ne_nil ne
  have digit : isDigit d := all d List.mem_cons_self
  have unspaced : ∀ c ∈ (sign ++ d :: ds ++ rest).head?, ¬ isSpace c := by
    intro c hc
    rcases sign_eq with rfl | rfl | rfl
    · cases hc
      exact not_space_of_digit digit
    · cases hc
      decide
    · cases hc
      decide
  have split := takeWhile_append_of_stop space unspaced
  have run := (takeWhile_append_of_stop all stops).1
  have signed : signOf (sign ++ d :: ds ++ rest) = sign := by
    rw [List.append_assoc]
    exact signOf_unsigned sign_eq digit (ds ++ rest)
  simp only [Numeral.text, Numeral.value, readInteger, List.append_assoc] at split signed run ⊢
  simp only [split, signed, List.drop_left, run, if_neg ne, List.length_append]
  rw [Nat.add_assoc]

/-- What `readInteger` finds is a numeral at the front of the text. -/
theorem readInteger_some {text : List UInt8} {value : Int} {stop : Nat}
    (h : readInteger text = some (value, stop)) :
    ∃ (n : Numeral) (rest : List UInt8), text = n.text ++ rest ∧ StopsDigits rest ∧
      value = n.value ∧ stop = n.text.length := by
  unfold readInteger at h
  dsimp only at h
  split at h
  · cases h
  · rename_i ne
    generalize hs : text.dropWhile isSpace = signed at h ne
    have blank : text.takeWhile isSpace ++ signed = text := hs ▸ List.takeWhile_append_dropWhile
    have parts := signOf_append signed
    generalize hu : signed.drop (signOf signed).length = unsigned at h ne parts
    have digits : unsigned.takeWhile isDigit ++ unsigned.dropWhile isDigit = unsigned :=
      List.takeWhile_append_dropWhile
    refine ⟨⟨text.takeWhile isSpace, signOf signed, unsigned.takeWhile isDigit, ?_,
      signOf_eq signed, ne, ?_⟩, unsigned.dropWhile isDigit, ?_, ?_, ?_, ?_⟩
    · exact List.all_eq_true.1 List.all_takeWhile
    · exact List.all_eq_true.1 List.all_takeWhile
    · simp only [Numeral.text, List.append_assoc]
      rw [digits, parts, blank]
    · intro c hc
      cases hd : unsigned.dropWhile isDigit with
      | nil => rw [hd] at hc; cases hc
      | cons x rest =>
        have first := List.head?_dropWhile_not isDigit unsigned
        rw [hd] at hc first
        cases hc
        simp only [List.head?_cons] at first
        simp [first]
    · simp only [Option.some.injEq, Prod.mk.injEq] at h
      exact h.1.symm
    · simp only [Option.some.injEq, Prod.mk.injEq] at h
      simp only [Numeral.text, List.length_append]
      exact h.2.symm

/-! ## Decimal numerals -/

/-- The digits of a number, without leading zeros. -/
def decimal (n : Nat) : List UInt8 :=
  if n = 0 then [48] else (Nat.digits 10 n).reverse.map fun d => UInt8.ofNat (48 + d)

def decimalInt (z : Int) : List UInt8 :=
  (if z < 0 then [45] else []) ++ decimal z.natAbs

theorem decimal_ne_nil (n : Nat) : decimal n ≠ [] := by
  unfold decimal
  split
  · exact List.cons_ne_nil _ _
  · rename_i nonzero
    simp [Nat.digits_eq_nil_iff_eq_zero, nonzero]

theorem decimal_digit (n : Nat) : ∀ c ∈ decimal n, isDigit c := by
  intro c hc
  unfold decimal at hc
  split at hc
  · cases List.mem_singleton.1 hc
    rfl
  · obtain ⟨d, hd, rfl⟩ := List.mem_map.1 hc
    have small : d < 10 := Nat.digits_lt_base (by decide) (List.mem_reverse.1 hd)
    simp only [isDigit, decide_eq_true_eq, UInt8.le_iff_toNat_le, UInt8.toNat_ofNat']
    simp only [UInt8.reduceToNat]
    omega

theorem digitsValue_map (digits : List Nat) (small : ∀ d ∈ digits, d < 10) :
    digitsValue (digits.reverse.map fun d => UInt8.ofNat (48 + d)) = Nat.ofDigits 10 digits := by
  induction digits with
  | nil => rfl
  | cons d digits ih =>
    have below : d < 10 := small d List.mem_cons_self
    have rest := ih fun d hd => small d (List.mem_cons_of_mem _ hd)
    simp only [digitsValue] at rest
    simp only [digitsValue, List.reverse_cons, List.map_append, List.foldl_append, rest,
      List.map_cons, List.map_nil, List.foldl_cons, List.foldl_nil, UInt8.toNat_ofNat',
      Nat.ofDigits_cons]
    omega

theorem digitsValue_decimal (n : Nat) : digitsValue (decimal n) = n := by
  unfold decimal
  split
  · rename_i zero
    rw [zero]
    rfl
  · rw [digitsValue_map _ fun d hd => Nat.digits_lt_base (by decide) hd, Nat.ofDigits_digits]

def decimalNumeral (z : Int) : Numeral where
  blanks := []
  sign := if z < 0 then [45] else []
  digits := decimal z.natAbs
  blanks_space := nofun
  sign_eq := by split <;> simp
  digits_ne := decimal_ne_nil _
  digits_digit := decimal_digit _

@[simp] theorem decimalNumeral_text (z : Int) : (decimalNumeral z).text = decimalInt z := rfl

@[simp] theorem decimalNumeral_value (z : Int) : (decimalNumeral z).value = z := by
  simp only [Numeral.value, decimalNumeral, digitsValue_decimal]
  by_cases negative : z < 0
  · rw [if_pos negative, if_pos rfl]
    omega
  · rw [if_neg negative, if_neg (List.cons_ne_nil _ _).symm]
    omega

end TorrentClient
