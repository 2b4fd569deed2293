import Mathlib.Data.List.DropRight
import Mathlib.Data.Nat.Digits.Defs

/-!
# Numerals

Numbers are read from characters in ASCII: digits of any base up to 36, the most
significant first, with a sign in front of them and spaces around.  No digits are read as
zero.  `numeral` is the other way, for bases up to 16.
-/

namespace GuideOS
namespace Lib

/-- The character of a digit, in ASCII. -/
def digitText (uppercase : Bool) (d : Nat) : BitVec 8 :=
  BitVec.ofNat 8 (if uppercase then d.digitChar.toUpper else d.digitChar).toNat

/-- The digits of a number, the first one first. -/
def numeral (uppercase : Bool) (base value : Nat) : List (BitVec 8) :=
  (Nat.toDigits base value).map fun ch => BitVec.ofNat 8 (if uppercase then ch.toUpper else ch).toNat

/-- The last `n` characters of a text. -/
def lastChars (n : Nat) (cs : List (BitVec 8)) : List (BitVec 8) := cs.drop (cs.length - n)

/-- Letters of both cases count from ten on. -/
def digitValue (c : BitVec 8) : Option Nat :=
  if 0x30 ≤ c.toNat ∧ c.toNat ≤ 0x39 then some (c.toNat - 0x30)
  else if 0x61 ≤ c.toNat ∧ c.toNat ≤ 0x7A then some (c.toNat - 0x61 + 10)
  else if 0x41 ≤ c.toNat ∧ c.toNat ≤ 0x5A then some (c.toNat - 0x41 + 10)
  else none

/-- One more digit behind the value `v`. -/
def readDigit (base v : Nat) (c : BitVec 8) : Option Nat :=
  (digitValue c).bind fun d => if d < base then some (base * v + d) else none

def readNat (base : Nat) (cs : List (BitVec 8)) : Option Nat := cs.foldlM (readDigit base) 0

def readSigned (base : Nat) : List (BitVec 8) → Option Int
  | [] => some 0
  | c :: cs =>
      if c = 0x2D then (readNat base cs).map fun v => -(v : Int)
      else if c = 0x2B then (readNat base cs).map Int.ofNat
      else (readNat base (c :: cs)).map Int.ofNat

def readInt (base : Nat) (cs : List (BitVec 8)) : Option Int :=
  readSigned base ((cs.dropWhile (· = 0x20)).rdropWhile (· = 0x20))

section

variable {base d v : Nat} {c : BitVec 8} {cs : List (BitVec 8)} {ds : List Nat}

theorem readDigit_of_lt (hc : digitValue c = some d) (hd : d < base) : readDigit base v c = some (base * v + d) := by
  rw [readDigit, hc, Option.bind_some, if_pos hd]

/-- A number is read back from its digits. -/
theorem readNat_digits {f : Nat → BitVec 8} (hf : ∀ d < base, digitValue (f d) = some d)
    (hds : ∀ d ∈ ds, d < base) : readNat base (ds.map f).reverse = some (Nat.ofDigits base ds) := by
  induction ds with
  | nil => rfl
  | cons d ds ih =>
      obtain ⟨hd, hds⟩ := List.forall_mem_cons.mp hds
      have hrest := ih hds
      rw [readNat] at hrest
      rw [readNat, List.map_cons, List.reverse_cons, List.foldlM_append, hrest]
      show List.foldlM (readDigit base) (Nat.ofDigits base ds) [f d] = _
      rw [List.foldlM_cons, readDigit_of_lt (hf d hd) hd, Nat.ofDigits_cons, Nat.add_comm]
      rfl

theorem numeral_of_lt (uppercase : Bool) (h : v < base) : numeral uppercase base v = [digitText uppercase v] := by
  rw [numeral, Nat.toDigits_of_lt_base h]
  rfl

theorem numeral_of_le (uppercase : Bool) (hbase : 1 < base) (h : base ≤ v) :
    numeral uppercase base v = numeral uppercase base (v / base) ++ [digitText uppercase (v % base)] := by
  rw [numeral, Nat.toDigits_of_base_le hbase h, List.map_append]
  rfl

theorem length_lastChars (n : Nat) (cs : List (BitVec 8)) : (lastChars n cs).length = min n cs.length := by
  rw [lastChars, List.length_drop]
  omega

theorem lastChars_of_le {n : Nat} (h : cs.length ≤ n) : lastChars n cs = cs := by
  rw [lastChars, Nat.sub_eq_zero_of_le h, List.drop_zero]

/-- A text cut off twice. -/
theorem lastChars_append_lastChars (n : Nat) (cs cs' : List (BitVec 8)) :
    lastChars n (cs ++ lastChars n cs') = lastChars n (cs ++ cs') := by
  rcases Nat.le_total cs'.length n with hle | hle
  · rw [lastChars_of_le hle]
  · have hlen : (lastChars n cs').length = n := by rw [length_lastChars, Nat.min_eq_left hle]
    have hcut : ∀ ds : List (BitVec 8), n ≤ ds.length → lastChars n (cs ++ ds) = ds.drop (ds.length - n) := by
      intro ds hds
      rw [lastChars, List.length_append, Nat.add_sub_assoc hds, List.drop_length_add_append]
    rw [hcut _ (Nat.le_of_eq hlen.symm), hcut _ hle, hlen, Nat.sub_self, List.drop_zero, lastChars]

theorem digitValue_sign (hc : digitValue c = some d) : c ≠ 0x2D ∧ c ≠ 0x2B ∧ c ≠ 0x20 := by
  have hnot : ∀ c' : BitVec 8, digitValue c' = none → c ≠ c' := fun c' hnone heq => by
    rw [heq, hnone] at hc
    cases hc
  exact ⟨hnot _ (by decide), hnot _ (by decide), hnot _ (by decide)⟩

/-- Without a sign. -/
theorem readSigned_digits (hcs : ∀ c ∈ cs, (digitValue c).isSome) :
    readSigned base cs = (readNat base cs).map Int.ofNat := by
  cases cs with
  | nil => rfl
  | cons c cs =>
      obtain ⟨d, hd⟩ := Option.isSome_iff_exists.mp (hcs c List.mem_cons_self)
      obtain ⟨hminus, hplus, _⟩ := digitValue_sign hd
      rw [readSigned, if_neg hminus, if_neg hplus]

theorem dropWhile_spaces (n : Nat) (cs : List (BitVec 8)) :
    (List.replicate n 0x20 ++ cs).dropWhile (· = 0x20) = cs.dropWhile (· = 0x20) := by
  induction n with
  | zero => rfl
  | succ n ih =>
      rw [List.replicate_succ, List.cons_append, List.dropWhile_cons_of_pos (by decide)]
      exact ih

theorem rdropWhile_spaces (n : Nat) (cs : List (BitVec 8)) :
    (cs ++ List.replicate n 0x20).rdropWhile (· = 0x20) = cs.rdropWhile (· = 0x20) := by
  rw [List.rdropWhile, List.reverse_append, List.reverse_replicate, dropWhile_spaces, List.rdropWhile]

/-- Spaces around a number do not count. -/
theorem readInt_spaces (base m n : Nat) (hcs : ∀ c ∈ cs, c ≠ 0x20) :
    readInt base (List.replicate m 0x20 ++ cs ++ List.replicate n 0x20) = readSigned base cs := by
  cases cs with
  | nil =>
      rw [readInt, List.append_nil, dropWhile_spaces, ← List.append_nil (List.replicate n _), dropWhile_spaces]
      rfl
  | cons c cs =>
      have hc := hcs c List.mem_cons_self
      have hend : (c :: cs).rdropWhile (· = 0x20) = c :: cs := by
        refine List.rdropWhile_eq_self_iff.mpr fun hl => ?_
        have := hcs _ (List.getLast_mem hl)
        simpa using this
      rw [readInt, List.append_assoc, dropWhile_spaces, List.cons_append,
        List.dropWhile_cons_of_neg (by simpa using hc), ← List.cons_append, rdropWhile_spaces, hend]

end

end Lib
end GuideOS
