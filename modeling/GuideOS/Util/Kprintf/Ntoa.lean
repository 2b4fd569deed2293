import Mathlib.Data.Nat.Digits.Lemmas
import GuideOS.Lib.Numeral
import GuideOS.Util.Kprintf

/-!
# Integers as text

What the conversions of integers write, and when the number can be read back from it.
`numberText` is the text of a number by its parts; the conversions go through an array of 32
characters, and so the text is cut off in front.
-/

namespace GuideOS
namespace Kprintf

open Lib

/-! ## Output of several characters -/

section

variable {k : Sink} {s : Output} {cs ds : List (BitVec 8)} {n : Nat}

theorem puts_append (k : Sink) (s : Output) (cs ds : List (BitVec 8)) :
    s.puts k (cs ++ ds) = (s.puts k cs).puts k ds := by
  induction cs generalizing s with
  | nil => rfl
  | cons c cs ih => exact ih (s.put k c)

theorem pad_eq (k : Sink) (s : Output) (n : Nat) : s.pad k n = s.puts k (List.replicate n 0x20) := by
  induction n generalizing s with
  | zero => rfl
  | succ n ih => exact ih (s.put k 0x20)

theorem idx_puts (h : s.idx < 2 ^ 64) : (s.puts k cs).idx = (s.idx + cs.length) % 2 ^ 64 := by
  induction cs generalizing s with
  | nil => exact (Nat.mod_eq_of_lt h).symm
  | cons c cs ih =>
      have hrest := ih (s := s.put k c) (Nat.mod_lt _ (Nat.two_pow_pos 64))
      rw [Output.puts, hrest, List.length_cons]
      show ((s.idx + 1) % 2 ^ 64 + cs.length) % 2 ^ 64 = _
      rw [Nat.mod_add_mod, Nat.add_assoc, Nat.add_comm 1]

end

/-! ## The text of a number -/

def signText (negative : Bool) (flags : Flags) : List (BitVec 8) :=
  if negative then [0x2D] else if flags.plus then [0x2B] else if flags.space then [0x20] else []

/-- What `#` puts in front of the digits -/
def hashChars (base : Nat) (uppercase : Bool) : List (BitVec 8) :=
  if base = 16 then [0x30, if uppercase then 0x58 else 0x78] else if base = 2 then [0x30, 0x62] else [0x30]

/-- The digits with the zeros in front of them. -/
def zerosText (value base prec width : Nat) (flags : Flags) : List (BitVec 8) :=
  let digits := if flags.precision ∧ value = 0 then [] else numeral flags.uppercase base value
  let least := if flags.left then 0 else max prec (if flags.zeropad then width else 0)
  lastChars 32 (List.replicate (min least 32 - digits.length) 0x30 ++ digits)

/-- How many of `len` digits and zeros the prefix of `#` replaces: where they fill the
precision or the width it takes the place of the first ones. -/
def hashLoss (base prec width len : Nat) (flags : Flags) : Nat :=
  if flags.precision = false ∧ len ≠ 0 ∧ (len = prec ∨ len = width) then if base = 16 ∧ len ≠ 1 then 2 else 1
  else 0

def numberText (value : Nat) (negative : Bool) (base prec width : Nat) (flags : Flags) : List (BitVec 8) :=
  let sign := signText negative flags
  -- Zeros leave a place for the sign.
  let width := if flags.left = false ∧ flags.zeropad ∧ sign ≠ [] then width - 1 else width
  let digits := zerosText value base prec width flags
  let number :=
    if flags.hash ∧ value ≠ 0 then
      hashChars base flags.uppercase ++ digits.drop (hashLoss base prec width digits.length flags)
    else digits
  let text := lastChars 32 (sign ++ number)
  if flags.left then text ++ List.replicate (width - text.length) 0x20
  else if flags.zeropad then text
  else List.replicate (width - text.length) 0x20 ++ text

/-! ## The buffer of a number -/

namespace NtoaBuf

variable (buf : NtoaBuf) (c : BitVec 8) (n : Nat)

theorem len_le : buf.len ≤ 32 := buf.fits

theorem chars_push_of_lt (h : buf.len < 32) : (buf.push c).chars = buf.chars ++ [c] := by
  have hroom : buf.len < ntoaBufferSize := h
  rw [push, dif_pos hroom]

theorem push_of_full (h : ¬ buf.len < 32) : buf.push c = buf := by
  have hfull : ¬ buf.len < ntoaBufferSize := h
  rw [push, dif_neg hfull]

theorem len_push_of_lt (h : buf.len < 32) : (buf.push c).len = buf.len + 1 := by
  rw [len, chars_push_of_lt buf c h, List.length_append]
  rfl

theorem chars_pushes (h : buf.len + n ≤ 32) : (buf.pushes c n).chars = buf.chars ++ List.replicate n c := by
  induction n generalizing buf with
  | zero => exact (List.append_nil _).symm
  | succ n ih =>
      have hlen := buf.len_push_of_lt c (by omega)
      rw [pushes, ih (buf.push c) (by omega), chars_push_of_lt buf c (by omega), List.append_assoc]
      rfl

theorem chars_fill : (buf.fill n).chars = buf.chars ++ List.replicate (min n 32 - buf.len) 0x30 := by
  have hle := buf.len_le
  exact buf.chars_pushes 0x30 _ (by show buf.len + (min n 32 - buf.len) ≤ 32; omega)

theorem len_fill : (buf.fill n).len = max buf.len (min n 32) := by
  rw [len, chars_fill, List.length_append, List.length_replicate, ← len]
  omega

end NtoaBuf

/-- The digits of a number, the last one first. -/
def digitsOf (base value : Nat) : List Nat := if value = 0 then [0] else Nat.digits base value

section

variable {base value prec width : Nat} {uppercase negative : Bool} {flags : Flags} {buf : NtoaBuf}

theorem digitsOf_cons (hbase : 2 ≤ base) (h : value / base ≠ 0) :
    digitsOf base value = value % base :: digitsOf base (value / base) := by
  have hpos : 0 < value := Nat.pos_of_ne_zero fun h0 => h (by rw [h0, Nat.zero_div])
  rw [digitsOf, if_neg (Nat.ne_of_gt hpos), Nat.digits_of_two_le_of_pos hbase hpos, digitsOf, if_neg h]

theorem digitsOf_single (hbase : 2 ≤ base) (h : value / base = 0) : digitsOf base value = [value % base] := by
  have hlt : value < base := (Nat.div_eq_zero_iff_lt (by omega)).mp h
  rw [digitsOf, Nat.mod_eq_of_lt hlt]
  split
  · rename_i h0
    rw [h0]
  · rename_i h0
    exact Nat.digits_of_lt base value h0 hlt

theorem digitsOf_lt (hbase : 2 ≤ base) (value : Nat) : ∀ d ∈ digitsOf base value, d < base := by
  rw [digitsOf]
  split
  · rw [List.forall_mem_singleton]
    omega
  · exact fun d hd => Nat.digits_lt_base hbase hd

theorem ofDigits_digitsOf (base value : Nat) : Nat.ofDigits base (digitsOf base value) = value := by
  rw [digitsOf]
  split
  · rename_i h0
    rw [h0]
    exact Nat.ofDigits_singleton
  · exact Nat.ofDigits_digits base value

/-- The digits that are left out are the first ones. -/
theorem ofDigits_take_digitsOf (hbase : 2 ≤ base) (value n : Nat) :
    Nat.ofDigits base ((digitsOf base value).take n) = value % base ^ n := by
  rw [← Nat.ofDigits_mod_pow_eq_ofDigits_take n (by omega) _ (digitsOf_lt hbase value), ofDigits_digitsOf]

/-- The loop writes the digits that there is room for. -/
theorem digitLoop_chars (hbase : 2 ≤ base) {fuel : Nat} (hlen : buf.len < 32) (hfuel : 32 ≤ fuel + buf.len) :
    (digitLoop uppercase base fuel value buf).chars =
      buf.chars ++ ((digitsOf base value).take (32 - buf.len)).map (digitChar uppercase) := by
  induction fuel generalizing value buf with
  | zero => omega
  | succ fuel ih =>
      have hchars := buf.chars_push_of_lt (digitChar uppercase (value % base)) hlen
      have hnext := buf.len_push_of_lt (digitChar uppercase (value % base)) hlen
      have hroom : 32 - buf.len = 32 - (buf.len + 1) + 1 := by omega
      rw [digitLoop]
      split
      · rename_i hmore
        have hlen' : buf.len + 1 < 32 := by
          rw [← hnext]
          exact hmore.2
        rw [ih (by omega) (by omega), hchars, hnext, digitsOf_cons hbase hmore.1, hroom, List.take_succ_cons,
          List.map_cons, List.append_assoc]
        rfl
      · rename_i hstop
        rw [hchars, hroom]
        by_cases hquot : value / base = 0
        · rw [digitsOf_single hbase hquot, List.take_succ_cons, List.take_nil]
          rfl
        · have hfull : ¬ (buf.push (digitChar uppercase (value % base))).len < ntoaBufferSize :=
            fun hlt => hstop ⟨hquot, hlt⟩
          rw [hnext, ntoaBufferSize] at hfull
          rw [digitsOf_cons hbase hquot, show 32 - (buf.len + 1) = 0 by omega]
          rfl

/-! ## The text of a number -/

/-- The number in the buffer, padded to the width. -/
def field (buf : NtoaBuf) (width : Nat) (flags : Flags) : List (BitVec 8) :=
  if flags.left then buf.chars.reverse ++ List.replicate (width - buf.len) 0x20
  else if flags.zeropad then buf.chars.reverse
  else List.replicate (width - buf.len) 0x20 ++ buf.chars.reverse

theorem outRev_eq (k : Sink) {s : Output} (hs : s.idx < 2 ^ 64) (buf : NtoaBuf) (width : Nat) (flags : Flags) :
    outRev k s buf width flags = s.puts k (field buf width flags) := by
  have hlen : buf.chars.reverse.length = buf.len := List.length_reverse
  have hfits := buf.len_le
  rw [outRev, field]
  cases hleft : flags.left with
  | true =>
      have hidx : ((s.puts k buf.chars.reverse).idx + 2 ^ 64 - s.idx) % 2 ^ 64 = buf.len := by
        rw [idx_puts hs, hlen]
        omega
      simp only [Bool.true_eq_false, false_and, if_false, if_true]
      rw [hidx, pad_eq, puts_append]
  | false =>
      cases flags.zeropad with
      | true => rfl
      | false =>
          simp only [and_self, if_true, Bool.false_eq_true, if_false]
          rw [pad_eq, puts_append]

/-- The digits with which the conversion begins. -/
def ntoaDigits (value base : Nat) (flags : Flags) : NtoaBuf :=
  if flags.precision = false ∨ value ≠ 0 then digitLoop flags.uppercase base ntoaBufferSize value .empty
  else .empty

/-- The flags without `#` for zero. -/
def ntoaFlags (value : Nat) (flags : Flags) : Flags := if value = 0 then { flags with hash := false } else flags

def ntoaBuf (value : Nat) (negative : Bool) (base prec width : Nat) (flags : Flags) : NtoaBuf :=
  let flags := ntoaFlags value flags
  let buf := padZeros (ntoaDigits value base flags) prec (ntoaWidth negative width flags) flags
  pushSign (handleHash buf base prec (ntoaWidth negative width flags) flags) negative flags

def ntoaText (value : Nat) (negative : Bool) (base prec width : Nat) (flags : Flags) : List (BitVec 8) :=
  field (ntoaBuf value negative base prec width flags) (ntoaWidth negative width flags) flags

theorem ntoa_eq (k : Sink) {s : Output} (hs : s.idx < 2 ^ 64) (value : Nat) (negative : Bool)
    (base prec width : Nat) (flags : Flags) :
    ntoa k s value negative base prec width flags = s.puts k (ntoaText value negative base prec width flags) := by
  have hwidth : ntoaWidth negative width (ntoaFlags value flags) = ntoaWidth negative width flags := by
    rw [ntoaFlags]
    split
    · rfl
    · rfl
  have hfield : ∀ buf w, field buf w (ntoaFlags value flags) = field buf w flags := fun buf w => by
    rw [ntoaFlags]
    split
    · rfl
    · rfl
  rw [ntoaText, ntoaBuf, ← hwidth, ← hfield]
  exact outRev_eq k hs _ _ _

/-! ## The array holds the end of the text -/

theorem chars_padZeros : (padZeros buf prec width flags).chars =
    buf.chars ++ List.replicate ((padZeros buf prec width flags).len - buf.len) 0x30 := by
  rw [padZeros]
  cases flags.left with
  | true => simp
  | false =>
      have hprec := buf.len_fill prec
      cases flags.zeropad with
      | false =>
          simp only [Bool.false_eq_true, if_false]
          rw [hprec, buf.chars_fill, show max buf.len (min prec 32) - buf.len = min prec 32 - buf.len by omega]
      | true =>
          have hwidth := (buf.fill prec).len_fill width
          simp only [Bool.false_eq_true, if_false, if_true]
          rw [hwidth, (buf.fill prec).chars_fill, buf.chars_fill, List.append_assoc, List.replicate_append_replicate,
            hprec]
          congr 2
          omega

/-- The number with its leading zeros is no longer than the digits, the precision and the
width to be filled. -/
theorem len_padZeros (buf : NtoaBuf) (prec width : Nat) (flags : Flags) : (padZeros buf prec width flags).len =
    if flags.left then buf.len else max buf.len (min (max prec (if flags.zeropad then width else 0)) 32) := by
  have hle := buf.len_le
  rw [padZeros]
  cases flags.left with
  | true => rfl
  | false =>
      have hprec := buf.len_fill prec
      cases flags.zeropad with
      | false =>
          simp only [Bool.false_eq_true, if_false]
          rw [hprec, Nat.max_zero]
      | true =>
          have hwidth := (buf.fill prec).len_fill width
          simp only [Bool.false_eq_true, if_false, if_true]
          rw [hwidth, hprec]
          omega

theorem reverse_push (buf : NtoaBuf) (c : BitVec 8) :
    (buf.push c).chars.reverse = lastChars 32 (c :: buf.chars.reverse) := by
  have hlen : buf.chars.reverse.length = buf.len := List.length_reverse
  have hle := buf.len_le
  by_cases hlt : buf.len < 32
  · rw [buf.chars_push_of_lt c hlt, List.reverse_append, lastChars_of_le (by rw [List.length_cons]; omega)]
    rfl
  · rw [buf.push_of_full c hlt, lastChars, List.length_cons, hlen, show buf.len + 1 - 32 = 1 by omega]
    rfl

theorem reverse_lastChars (buf : NtoaBuf) : lastChars 32 buf.chars.reverse = buf.chars.reverse :=
  lastChars_of_le (by rw [List.length_reverse]; exact buf.len_le)

theorem digitText_eq (uppercase : Bool) {d : Nat} (hd : d < 16) : digitText uppercase d = digitChar uppercase d := by
  have hall : ∀ u : Bool, ∀ d < 16, digitText u d = digitChar u d := by decide
  exact hall uppercase d hd

theorem numeral_eq (hbase : 2 ≤ base) (hbase' : base ≤ 16) (value : Nat) :
    numeral uppercase base value = ((digitsOf base value).map (digitChar uppercase)).reverse := by
  induction value using Nat.strong_induction_on with
  | _ value ih =>
    have hlast := Nat.mod_lt value (show base > 0 by omega)
    by_cases hlt : value < base
    · have hquot : value / base = 0 := Nat.div_eq_of_lt hlt
      rw [numeral_of_lt _ hlt, digitsOf_single hbase hquot, Nat.mod_eq_of_lt hlt, digitText_eq _ (by omega)]
      rfl
    · have hquot : value / base ≠ 0 := (Nat.div_pos (by omega) (by omega)).ne'
      rw [numeral_of_le _ (by omega) (by omega), ih _ (Nat.div_lt_self (by omega) (by omega)),
        digitsOf_cons hbase hquot, digitText_eq _ (by omega), List.map_cons, List.reverse_cons]

theorem reverse_ntoaDigits (hbase : 2 ≤ base) (hbase' : base ≤ 16) (value : Nat) (flags : Flags) :
    (ntoaDigits value base flags).chars.reverse = lastChars 32 (if flags.precision ∧ value = 0 then [] else numeral flags.uppercase base value) := by
  rw [ntoaDigits]
  by_cases hnone : flags.precision = true ∧ value = 0
  · rw [if_neg (by simp [hnone.1, hnone.2]), if_pos hnone]
    rfl
  · have hsome : flags.precision = false ∨ value ≠ 0 := by
      rwa [not_and_or, Bool.not_eq_true] at hnone
    rw [if_pos hsome, if_neg hnone, digitLoop_chars hbase (by decide) (by decide), numeral_eq hbase hbase']
    show (((digitsOf base value).take 32).map _).reverse = _
    rw [List.map_take, List.reverse_take, lastChars, List.length_reverse]

theorem reverse_padZeros (hbase : 2 ≤ base) (hbase' : base ≤ 16) (value prec width : Nat) (flags : Flags) :
    (padZeros (ntoaDigits value base flags) prec width flags).chars.reverse =
      zerosText value base prec width flags := by
  have hdigits := reverse_ntoaDigits hbase hbase' value flags
  have hlen := congrArg List.length hdigits
  rw [length_lastChars, List.length_reverse] at hlen
  have hbuf : (ntoaDigits value base flags).chars.length = (ntoaDigits value base flags).len := rfl
  rw [chars_padZeros, len_padZeros, List.reverse_append, List.reverse_replicate, hdigits, zerosText]
  generalize (if flags.precision = true ∧ value = 0 then [] else numeral flags.uppercase base value) = digits at hlen ⊢
  rw [hbuf] at hlen
  rcases Nat.le_total digits.length 32 with hle | hle
  · have hzeros : (if flags.left = true then (ntoaDigits value base flags).len else
        max (ntoaDigits value base flags).len (min (max prec (if flags.zeropad = true then width else 0)) 32)) -
          (ntoaDigits value base flags).len =
        min (if flags.left = true then 0 else max prec (if flags.zeropad = true then width else 0)) 32 -
          digits.length := by
      split <;> omega
    rw [hzeros, lastChars_of_le hle, lastChars_of_le]
    rw [List.length_append, List.length_replicate]
    omega
  · have hzeros : (if flags.left = true then (ntoaDigits value base flags).len else
        max (ntoaDigits value base flags).len (min (max prec (if flags.zeropad = true then width else 0)) 32)) -
          (ntoaDigits value base flags).len = 0 := by
      split <;> omega
    rw [hzeros, show min (if flags.left = true then 0 else max prec (if flags.zeropad = true then width else 0)) 32 -
      digits.length = 0 by omega]
    rfl

theorem reverse_handleHash (hhash : flags.hash = true) (hbase : base = 16 ∨ base = 8 ∨ base = 2 ∨ base = 10)
    (buf : NtoaBuf) (prec width : Nat) : (handleHash buf base prec width flags).chars.reverse =
      lastChars 32 (hashChars base flags.uppercase ++
        buf.chars.reverse.drop (hashLoss base prec width buf.len flags)) := by
  have hpop : ∀ b : NtoaBuf, b.pop.chars.reverse = b.chars.reverse.drop 1 := fun b => by
    rw [NtoaBuf.pop, List.drop_one, ← List.tail_reverse]
  have hkept : (if flags.precision = false ∧ buf.len ≠ 0 ∧ (buf.len = prec ∨ buf.len = width) then
      (if buf.pop.len ≠ 0 ∧ base = 16 then buf.pop.pop else buf.pop) else buf).chars.reverse =
      buf.chars.reverse.drop (hashLoss base prec width buf.len flags) := by
    rw [hashLoss]
    split
    · have hlen : buf.pop.len ≠ 0 ∧ base = 16 ↔ base = 16 ∧ buf.len ≠ 1 := by
        have hone : buf.pop.len = buf.len - 1 := List.length_dropLast
        rw [hone]
        omega
      simp only [hlen]
      split
      · rw [hpop, hpop, List.drop_drop]
      · rw [hpop]
    · rfl
  rw [handleHash, if_pos hhash]
  simp only
  generalize (if flags.precision = false ∧ buf.len ≠ 0 ∧ (buf.len = prec ∨ buf.len = width) then
      (if buf.pop.len ≠ 0 ∧ base = 16 then buf.pop.pop else buf.pop) else buf) = rest at hkept ⊢
  rw [← hkept, reverse_push]
  have htwo : ∀ x, lastChars 32 (0x30 :: lastChars 32 (x :: rest.chars.reverse)) =
      lastChars 32 ([0x30, x] ++ rest.chars.reverse) := fun x =>
    lastChars_append_lastChars 32 [0x30] (x :: rest.chars.reverse)
  rcases hbase with rfl | rfl | rfl | rfl
  · cases hupper : flags.uppercase with
    | true =>
        rw [if_neg (by simp), if_pos (by simp), reverse_push]
        exact htwo _
    | false =>
        rw [if_pos (by simp), reverse_push]
        exact htwo _
  · rfl
  · rw [if_neg (by omega), if_neg (by omega), if_pos rfl, reverse_push]
    exact htwo _
  · rfl

theorem reverse_pushSign (buf : NtoaBuf) (negative : Bool) (flags : Flags) :
    (pushSign buf negative flags).chars.reverse = lastChars 32 (signText negative flags ++ buf.chars.reverse) := by
  rw [pushSign, signText]
  split_ifs
  · exact reverse_push buf _
  · exact reverse_push buf _
  · exact reverse_push buf _
  · exact (reverse_lastChars buf).symm

theorem ntoaWidth_eq (negative : Bool) (width : Nat) (flags : Flags) : ntoaWidth negative width flags =
    if flags.left = false ∧ flags.zeropad ∧ signText negative flags ≠ [] then width - 1 else width := by
  have hsign : signText negative flags ≠ [] ↔ negative = true ∨ flags.plus = true ∨ flags.space = true := by
    rw [signText]
    split_ifs <;> simp_all
  rw [ntoaWidth]
  simp only [hsign]
  split <;> split <;> first | rfl | (rename_i h h'; simp_all)

/-- The characters of the array, padded to the width, are the text of the number. -/
theorem ntoaText_eq (hbase : base = 16 ∨ base = 8 ∨ base = 2 ∨ base = 10) (value : Nat) (negative : Bool)
    (prec width : Nat) (flags : Flags) :
    ntoaText value negative base prec width flags = numberText value negative base prec width flags := by
  have hbase2 : 2 ≤ base := by omega
  have hbase16 : base ≤ 16 := by omega
  have hbuf : (ntoaBuf value negative base prec width flags).chars.reverse = lastChars 32
      (signText negative flags ++
        if flags.hash ∧ value ≠ 0 then hashChars base flags.uppercase ++
          (zerosText value base prec (ntoaWidth negative width flags) flags).drop (hashLoss base prec
            (ntoaWidth negative width flags) (zerosText value base prec (ntoaWidth negative width flags) flags).length
            flags)
        else zerosText value base prec (ntoaWidth negative width flags) flags) := by
    have hdigits := reverse_padZeros hbase2 hbase16 value prec (ntoaWidth negative width flags) flags
    rw [ntoaBuf, ntoaFlags, reverse_pushSign]
    by_cases hzero : value = 0
    · rw [if_pos hzero, if_neg fun h => h.2 hzero, ← hdigits]
      rfl
    · rw [if_neg hzero]
      by_cases hhash : flags.hash = true
      · rw [if_pos ⟨hhash, hzero⟩, reverse_handleHash hhash hbase, lastChars_append_lastChars, hdigits, ← hdigits,
          List.length_reverse]
        rfl
      · rw [if_neg fun h => hhash h.1, handleHash, if_neg hhash, hdigits]
  rw [ntoaText, numberText, ← ntoaWidth_eq, ← hbuf, List.length_reverse]
  rfl

/-! ## Reading the number back -/

theorem digitValue_digitChar (uppercase : Bool) {d : Nat} (hd : d < 16) :
    digitValue (digitChar uppercase d) = some d := by
  have hall : ∀ u : Bool, ∀ d < 16, digitValue (digitChar u d) = some d := by decide
  exact hall uppercase d hd

theorem magnitude_eq {w : Nat} (value : BitVec w) : magnitude value = value.toInt.natAbs := by
  rw [magnitude]
  split
  · rename_i hpos
    have := value.toInt_eq_toNat_cond
    omega
  · rename_i hneg
    have hsub : (0 : BitVec w) - value = -value := BitVec.zero_sub value
    rw [hsub, BitVec.toNat_neg]
    have hcond := value.toInt_eq_toNat_cond
    have hlt := value.isLt
    split at hcond
    · have h0 : value.toNat = 0 := by omega
      rw [h0, Nat.sub_zero, Nat.mod_self]
      omega
    · rw [Nat.mod_eq_of_lt (by omega)]
      omega

/-- The sign that is written, the space apart. -/
def signChars (negative : Bool) (flags : Flags) : List (BitVec 8) :=
  if negative then [0x2D] else if flags.plus then [0x2B] else []

theorem signText_eq (negative : Bool) (flags : Flags) :
    ∃ n, signText negative flags = List.replicate n 0x20 ++ signChars negative flags := by
  rw [signText, signChars]
  split_ifs
  · exact ⟨0, rfl⟩
  · exact ⟨0, rfl⟩
  · exact ⟨1, rfl⟩
  · exact ⟨0, rfl⟩

theorem length_signText_le (negative : Bool) (flags : Flags) : (signText negative flags).length ≤ 1 := by
  rw [signText]
  split_ifs
  · exact Nat.le_refl 1
  · exact Nat.le_refl 1
  · exact Nat.le_refl 1
  · exact Nat.zero_le 1

theorem signChars_ne_space {negative : Bool} {flags : Flags} : ∀ c ∈ signChars negative flags, c ≠ 0x20 := by
  rw [signChars]
  split_ifs
  · decide
  · decide
  · decide

/-- The sign stands in front of the number, if there is room for it. -/
theorem exists_reverse_pushSign (buf : NtoaBuf) (negative : Bool) (flags : Flags) :
    ∃ n, (pushSign buf negative flags).chars.reverse = List.replicate n 0x20 ++
      ((if buf.len < 32 then signChars negative flags else []) ++ buf.chars.reverse) := by
  have hlen : buf.chars.reverse.length = buf.len := List.length_reverse
  by_cases hlt : buf.len < 32
  · obtain ⟨n, hsign⟩ := signText_eq negative flags
    have hone := length_signText_le negative flags
    refine ⟨n, ?_⟩
    rw [if_pos hlt, reverse_pushSign, lastChars_of_le (by rw [List.length_append]; omega), hsign, List.append_assoc]
  · have hle := buf.len_le
    refine ⟨0, ?_⟩
    rw [if_neg hlt, reverse_pushSign, lastChars, List.length_append, hlen, show buf.len = 32 by omega, Nat.add_sub_cancel,
      List.drop_left]
    rfl

/-- A number with its sign. -/
theorem readSigned_signChars {cs : List (BitVec 8)} {n : Nat} (hcs : ∀ c ∈ cs, (digitValue c).isSome)
    (hread : readNat base cs = some n) (negative : Bool) (flags : Flags) :
    readSigned base (signChars negative flags ++ cs) = some (if negative then -(n : Int) else n) := by
  rw [signChars]
  split_ifs
  · rw [List.singleton_append, readSigned, if_pos rfl, hread]
    rfl
  · rw [List.singleton_append, readSigned, if_neg (by decide), if_pos rfl, hread]
    rfl
  · rw [List.nil_append, readSigned_digits hcs, hread]
    rfl

/-- Padding does not change what is read. -/
theorem readInt_field {core : List (BitVec 8)} {n : Nat} (hbuf : buf.chars.reverse = List.replicate n 0x20 ++ core)
    (hcore : ∀ c ∈ core, c ≠ 0x20) : readInt base (field buf width flags) = readSigned base core := by
  rw [field, hbuf]
  have hplain : readInt base (List.replicate n 0x20 ++ core) = readSigned base core := by
    have h := readInt_spaces base n 0 hcore
    rwa [List.replicate_zero, List.append_nil] at h
  split
  · exact readInt_spaces base n _ hcore
  · split
    · exact hplain
    · rw [← List.append_assoc, List.replicate_append_replicate]
      have h := readInt_spaces base (width - buf.len + n) 0 hcore
      rwa [List.replicate_zero, List.append_nil] at h

/-- The digits and zeros of a number without `#`. -/
theorem exists_digits (hbase : 2 ≤ base) (value prec width : Nat) (flags : Flags) :
    ∃ ds : List Nat, (padZeros (ntoaDigits value base flags) prec width flags).chars =
        ds.map (digitChar flags.uppercase) ∧
      (∀ d ∈ ds, d < base) ∧ Nat.ofDigits base ds = value % base ^ 32 := by
  obtain ⟨ds, hchars, hlt, hvalue⟩ : ∃ ds : List Nat, (ntoaDigits value base flags).chars =
      ds.map (digitChar flags.uppercase) ∧ (∀ d ∈ ds, d < base) ∧ Nat.ofDigits base ds = value % base ^ 32 := by
    rw [ntoaDigits]
    split
    · refine ⟨(digitsOf base value).take 32, digitLoop_chars hbase (by decide) (by decide), fun d hd => ?_,
        ofDigits_take_digitsOf hbase value 32⟩
      exact digitsOf_lt hbase value d (List.mem_of_mem_take hd)
    · rename_i hnone
      obtain ⟨_, h0⟩ := not_or.mp hnone
      rw [not_not] at h0
      exact ⟨[], rfl, fun d hd => absurd hd List.not_mem_nil, by rw [h0, Nat.zero_mod]; rfl⟩
  refine ⟨ds ++ List.replicate ((padZeros (ntoaDigits value base flags) prec width flags).len -
    (ntoaDigits value base flags).len) 0, ?_, fun d hd => ?_, ?_⟩
  · rw [List.map_append, List.map_replicate, chars_padZeros, hchars]
    rfl
  · rcases List.mem_append.mp hd with hd | hd
    · exact hlt d hd
    · rw [List.eq_of_mem_replicate hd]
      omega
  · rw [Nat.ofDigits_append_replicate_zero, hvalue]

/-- There is room for a sign in front of the digits. -/
def SignFits (value base prec width : Nat) (negative : Bool) (flags : Flags) : Prop :=
  (padZeros (ntoaDigits value base flags) prec (ntoaWidth negative width flags) flags).len < 32

instance (value base prec width : Nat) (negative : Bool) (flags : Flags) :
    Decidable (SignFits value base prec width negative flags) := inferInstanceAs (Decidable (_ < _))

/-- What is read from the text of a number without `#`. -/
theorem readInt_ntoaText (hbase : 2 ≤ base) (hbase' : base ≤ 16) (hhash : (ntoaFlags value flags).hash = false) :
    readInt base (ntoaText value negative base prec width flags) =
      some (if negative ∧ SignFits value base prec width negative flags then -((value % base ^ 32 : Nat) : Int)
        else (value % base ^ 32 : Nat)) := by
  have hbuf : ntoaBuf value negative base prec width flags = pushSign
      (padZeros (ntoaDigits value base flags) prec (ntoaWidth negative width flags) flags) negative flags := by
    rw [ntoaBuf]
    simp only [handleHash, hhash, Bool.false_eq_true, if_false]
    rw [ntoaFlags]
    split
    · rfl
    · rfl
  obtain ⟨ds, hchars, hlt, hvalue⟩ := exists_digits hbase value prec (ntoaWidth negative width flags) flags
  obtain ⟨n, hsign⟩ := exists_reverse_pushSign
    (padZeros (ntoaDigits value base flags) prec (ntoaWidth negative width flags) flags) negative flags
  rw [hchars] at hsign
  have hread : readNat base (ds.map (digitChar flags.uppercase)).reverse = some (value % base ^ 32) := by
    rw [readNat_digits (fun d hd => digitValue_digitChar _ (by omega)) hlt, hvalue]
  have hdigit : ∀ c ∈ (ds.map (digitChar flags.uppercase)).reverse, (digitValue c).isSome := by
    intro c hc
    obtain ⟨d, hd, rfl⟩ := List.mem_map.mp (List.mem_reverse.mp hc)
    have hd' := hlt d hd
    rw [digitValue_digitChar _ (by omega)]
    rfl
  have hspace : ∀ c ∈ (ds.map (digitChar flags.uppercase)).reverse, c ≠ 0x20 := fun c hc => by
    obtain ⟨d, hd⟩ := Option.isSome_iff_exists.mp (hdigit c hc)
    exact (digitValue_sign hd).2.2
  rw [ntoaText, hbuf]
  by_cases hfits : SignFits value base prec width negative flags
  · have hroom : (padZeros (ntoaDigits value base flags) prec (ntoaWidth negative width flags) flags).len < 32 := hfits
    rw [if_pos hroom] at hsign
    rw [readInt_field hsign (List.forall_mem_append.mpr ⟨signChars_ne_space, hspace⟩),
      readSigned_signChars hdigit hread]
    simp only [hfits, and_true]
  · have hfull : ¬(padZeros (ntoaDigits value base flags) prec (ntoaWidth negative width flags) flags).len < 32 := hfits
    rw [if_neg hfull, List.nil_append] at hsign
    rw [readInt_field hsign hspace, readSigned_digits hdigit, hread, if_neg fun h => hfits h.2]
    rfl

end

/-! ## The conversions of integers -/

/-- The argument in the type that the length field names. -/
def integerValue (c : BitVec 8) (flags : Flags) (word : BitVec 64) : Int :=
  if isSigned c then
    if flags.longLong ∨ flags.long then word.toInt
    else if flags.char then (word.setWidth 8).toInt
    else if flags.short then (word.setWidth 16).toInt
    else (word.setWidth 32).toInt
  else if flags.longLong ∨ flags.long then (word.toNat : Int)
  else if flags.char then ((word.setWidth 8).toNat : Int)
  else if flags.short then ((word.setWidth 16).toNat : Int)
  else ((word.setWidth 32).toNat : Int)

/-- The flags that mean something: `#` not for decimals, a sign in front of signed numbers only,
and no zeros beside a precision. -/
def numberFlags (c : BitVec 8) (flags : Flags) : Flags :=
  { flags with
    hash := flags.hash && integerBase c != 10
    uppercase := flags.uppercase || c == 0x58
    plus := flags.plus && isSigned c
    space := flags.space && isSigned c
    zeropad := flags.zeropad && !flags.precision }

def integerText (c : BitVec 8) (d : Directive) (word : BitVec 64) : List (BitVec 8) :=
  let value := integerValue c d.flags word
  numberText value.natAbs (value < 0) (integerBase c) d.precision d.width (numberFlags c d.flags)

section

variable {c : BitVec 8} {d : Directive} {word : BitVec 64}

theorem integerFlags_length (c : BitVec 8) (flags : Flags) :
    (integerFlags c flags).longLong = flags.longLong ∧ (integerFlags c flags).long = flags.long ∧
      (integerFlags c flags).short = flags.short ∧ (integerFlags c flags).char = flags.char := by
  rw [integerFlags]
  split_ifs <;> exact ⟨rfl, rfl, rfl, rfl⟩

theorem integerFlags_pad (c : BitVec 8) (flags : Flags) :
    (integerFlags c flags).left = flags.left ∧ (integerFlags c flags).precision = flags.precision ∧
      (integerFlags c flags).zeropad = (flags.zeropad && !flags.precision) := by
  rw [integerFlags]
  split_ifs <;> simp_all

theorem integerFlags_eq (c : BitVec 8) (flags : Flags) : integerFlags c flags = numberFlags c flags := by
  cases flags
  rw [integerFlags, numberFlags]
  split_ifs <;> simp_all

theorem integerBase_cases (c : BitVec 8) :
    integerBase c = 16 ∨ integerBase c = 8 ∨ integerBase c = 2 ∨ integerBase c = 10 := by
  rw [integerBase]
  split_ifs <;> simp

theorem integerText_eq (c : BitVec 8) (d : Directive) (word : BitVec 64) : integerText c d word =
    ntoaText (integerValue c d.flags word).natAbs (integerValue c d.flags word < 0) (integerBase c) d.precision d.width
      (integerFlags c d.flags) := by
  rw [integerText, integerFlags_eq, ntoaText_eq (integerBase_cases c)]

theorem integerFlags_hash (hhash : d.flags.hash = false ∨ integerBase c = 10) :
    (integerFlags c d.flags).hash = false := by
  rw [integerFlags]
  rcases hhash with hhash | hbase
  · split_ifs <;> first | exact hhash | rfl
  · split_ifs <;> rfl

/-- Every conversion of an integer goes through the same text. -/
theorem putInteger_eq (k : Sink) {s : Output} (hs : s.idx < 2 ^ 64) (c : BitVec 8) (d : Directive) (word : BitVec 64) :
    putInteger k s c d word = s.puts k (integerText c d word) := by
  obtain ⟨hlongLong, hlong, hshort, hchar⟩ := integerFlags_length c d.flags
  have h8 : ((word.setWidth 8).signExtend 32).toInt = (word.setWidth 8).toInt :=
    BitVec.toInt_signExtend_of_le (by omega)
  have h16 : ((word.setWidth 16).signExtend 32).toInt = (word.setWidth 16).toInt :=
    BitVec.toInt_signExtend_of_le (by omega)
  have hu8 : ((word.setWidth 8).setWidth 32).toNat = (word.setWidth 8).toNat :=
    BitVec.toNat_setWidth_of_le (by omega)
  have hu16 : ((word.setWidth 16).setWidth 32).toNat = (word.setWidth 16).toNat :=
    BitVec.toNat_setWidth_of_le (by omega)
  have hnonneg : ∀ n : Nat, decide ((n : Int) < 0) = false := fun n => by
    rw [decide_eq_false_iff_not]
    omega
  rw [integerText_eq, ← ntoa_eq k hs, putInteger, integerValue]
  simp only [hlongLong, hlong, hshort, hchar, ntoaLong, ntoaLongLong, magnitude_eq]
  cases isSigned c <;> cases d.flags.longLong <;> cases d.flags.long <;> cases d.flags.char <;>
    cases d.flags.short <;> simp [h8, h16, hu8, hu16, hnonneg, -BitVec.toNat_setWidth]

theorem integerBase_le (c : BitVec 8) : 2 ≤ integerBase c ∧ integerBase c ≤ 16 := by
  rw [integerBase]
  split_ifs <;> omega

theorem integerValue_signed (d : Directive) (word : BitVec 64) (hsigned : isSigned c) :
    -2 ^ 63 ≤ integerValue c d.flags word ∧ integerValue c d.flags word < 2 ^ 63 := by
  have h64 := word.le_toInt
  have h64' := word.toInt_lt
  have h32 := (word.setWidth 32).le_toInt
  have h32' := (word.setWidth 32).toInt_lt
  have h16 := (word.setWidth 16).le_toInt
  have h16' := (word.setWidth 16).toInt_lt
  have h8 := (word.setWidth 8).le_toInt
  have h8' := (word.setWidth 8).toInt_lt
  rw [integerValue, if_pos hsigned]
  split_ifs <;> omega

theorem integerValue_unsigned (d : Directive) (word : BitVec 64) (hunsigned : ¬isSigned c) :
    0 ≤ integerValue c d.flags word ∧ integerValue c d.flags word < 2 ^ 64 := by
  have h64 := word.isLt
  have h32 := (word.setWidth 32).isLt
  have h16 := (word.setWidth 16).isLt
  have h8 := (word.setWidth 8).isLt
  rw [integerValue, if_neg hunsigned]
  split_ifs <;> omega

theorem integerBase_signed (hsigned : isSigned c) : integerBase c = 10 := by
  rw [isSigned, Bool.or_eq_true, decide_eq_true_eq, decide_eq_true_eq] at hsigned
  rcases hsigned with rfl | rfl <;> rfl

theorem natAbs_integerValue_lt (c : BitVec 8) (d : Directive) (word : BitVec 64) :
    (integerValue c d.flags word).natAbs < 2 ^ 64 := by
  by_cases hsigned : isSigned c
  · have := integerValue_signed d word hsigned
    omega
  · have := integerValue_unsigned d word hsigned
    omega

/-- Only a binary number can have more digits than the array has room for. -/
theorem integerValue_mod : (integerValue c d.flags word).natAbs % integerBase c ^ 32 =
    (integerValue c d.flags word).natAbs ↔ (c = 0x62 → integerValue c d.flags word < 2 ^ 32) := by
  have hlt := natAbs_integerValue_lt c d word
  by_cases hbin : c = 0x62
  · have hnonneg := (integerValue_unsigned d word (show ¬isSigned c by rw [hbin]; decide)).1
    have hbase : integerBase c = 2 := by rw [hbin]; rfl
    rw [hbase, Nat.mod_eq_iff_lt (by decide)]
    constructor
    · intro h _
      omega
    · intro h
      have := h hbin
      omega
  · have hbase : 8 ≤ integerBase c := by
      rw [integerBase]
      split_ifs <;> omega
    have hpow : 8 ^ 32 ≤ integerBase c ^ 32 := Nat.pow_le_pow_left hbase 32
    rw [Nat.mod_eq_of_lt (by omega)]
    exact iff_of_true rfl fun h => absurd h hbin

/-- The digits of a decimal number leave room for the sign. -/
theorem len_ntoaDigits_decimal {value : Nat} (hvalue : value < 2 ^ 64) (flags : Flags) :
    (ntoaDigits value 10 flags).len ≤ 20 := by
  rw [ntoaDigits]
  split
  · rw [NtoaBuf.len, digitLoop_chars (by decide) (by decide) (by decide)]
    show ([] ++ _ : List (BitVec 8)).length ≤ 20
    rw [List.nil_append, List.length_map, List.length_take, digitsOf]
    split
    · show min _ 1 ≤ 20
      omega
    · rename_i h0
      have hlen : (Nat.digits 10 value).length ≤ 20 :=
        (Nat.digits_length_le_iff (by decide) value).mpr (by omega)
      omega
  · show 0 ≤ 20
    omega

/-- The digits of the value are all there, and so is its sign. -/
def IntegerFits (c : BitVec 8) (d : Directive) (word : BitVec 64) : Prop :=
  (c = 0x62 → integerValue c d.flags word < 2 ^ 32) ∧
    (integerValue c d.flags word < 0 → d.flags.left = false →
      d.precision < 32 ∧ (d.flags.zeropad → d.flags.precision = false → d.width ≤ 32))

instance (c : BitVec 8) (d : Directive) (word : BitVec 64) : Decidable (IntegerFits c d word) :=
  inferInstanceAs (Decidable (_ ∧ _))

theorem signFits_iff (hneg : integerValue c d.flags word < 0) :
    SignFits (integerValue c d.flags word).natAbs (integerBase c) d.precision d.width true
        (integerFlags c d.flags) ↔
      (d.flags.left = false →
        d.precision < 32 ∧ (d.flags.zeropad → d.flags.precision = false → d.width ≤ 32)) := by
  have hsigned : isSigned c := by
    by_contra hunsigned
    have := (integerValue_unsigned d word hunsigned).1
    omega
  obtain ⟨hleft, hprecision, hzeropad⟩ := integerFlags_pad c d.flags
  have hdigits := len_ntoaDigits_decimal (natAbs_integerValue_lt c d word)
    (integerFlags c d.flags)
  rw [SignFits, len_padZeros, integerBase_signed hsigned, ntoaWidth]
  simp only [hleft, hzeropad]
  cases d.flags.left <;> cases d.flags.zeropad <;> cases d.flags.precision <;> simp <;> (try split) <;> omega

/-- **The text of an integer reads back as the argument exactly when it fits the array.** -/
theorem readInt_integerText (hhash : d.flags.hash = false ∨ integerBase c = 10) :
    readInt (integerBase c) (integerText c d word) = some (integerValue c d.flags word) ↔
      IntegerFits c d word := by
  obtain ⟨hbase, hbase'⟩ := integerBase_le c
  have hnohash : (ntoaFlags (integerValue c d.flags word).natAbs (integerFlags c d.flags)).hash = false := by
    rw [ntoaFlags]
    split
    · rfl
    · exact integerFlags_hash hhash
  rw [integerText_eq, readInt_ntoaText hbase hbase' hnohash, Option.some_inj, IntegerFits, ← integerValue_mod]
  generalize (integerValue c d.flags word).natAbs % integerBase c ^ 32 = n
  by_cases hneg : integerValue c d.flags word < 0
  · have hpos : (integerValue c d.flags word).natAbs ≠ 0 := by omega
    simp only [hneg, decide_true, true_and, forall_const]
    rw [← signFits_iff hneg]
    split
    · rename_i hfits
      rw [and_iff_left hfits]
      omega
    · rename_i hfits
      refine iff_of_false ?_ fun h => hfits h.2
      omega
  · simp only [hneg, decide_false, Bool.false_eq_true, false_and, if_false, false_implies, and_true]
    omega

/-- **An integer is written so that it reads back as the argument exactly when it fits the
array**: a binary number has at most 32 digits, and there is room for the sign. -/
theorem putInteger_readInt (k : Sink) {s : Output} (hs : s.idx < 2 ^ 64)
    (hhash : d.flags.hash = false ∨ integerBase c = 10) :
    putInteger k s c d word = s.puts k (integerText c d word) ∧
      (readInt (integerBase c) (integerText c d word) = some (integerValue c d.flags word) ↔
        IntegerFits c d word) :=
  ⟨putInteger_eq k hs c d word, readInt_integerText hhash⟩

/-- `%d` of -1 -/
theorem putInteger_readInt_minus :
    (putInteger ⟨.outChar, 0, 0⟩ ⟨⟨fun _ => 0, []⟩, 0⟩ 0x64 ⟨.none, 0, 0⟩ (-1)).world.sent = [0x2D, 0x31] ∧
      readInt 10 [0x2D, 0x31] = some (-1) := by
  have h := @putInteger_readInt 0x64 ⟨.none, 0, 0⟩ (-1) ⟨.outChar, 0, 0⟩ ⟨⟨fun _ => 0, []⟩, 0⟩ (by decide)
    (Or.inl rfl)
  have htext : integerText 0x64 ⟨.none, 0, 0⟩ (-1) = [0x2D, 0x31] := by decide
  rw [htext] at h
  exact ⟨by rw [h.1]; rfl, h.2.mpr (by decide)⟩

end

/-! ## The alternate form -/

/-- How many of the digits and zeros are left when the prefix takes its place. -/
def hashKept (base width len : Nat) : Nat :=
  if len ≠ 0 ∧ len = width then (if len - 1 ≠ 0 ∧ base = 16 then len - 2 else len - 1) else len

section

variable {c : BitVec 8} {d : Directive} {word : BitVec 64} {buf : NtoaBuf} {base width value : Nat} {flags : Flags}

theorem NtoaBuf.chars_pop (buf : NtoaBuf) : buf.pop.chars = buf.chars.take (buf.len - 1) := List.dropLast_eq_take

theorem NtoaBuf.len_pop (buf : NtoaBuf) : buf.pop.len = buf.len - 1 := List.length_dropLast

/-- The digits that make room for the prefix are the first ones. -/
theorem hashKept_chars (buf : NtoaBuf) (base width : Nat) (hprecision : flags.precision = false) :
    (if flags.precision = false ∧ buf.len ≠ 0 ∧ (buf.len = 0 ∨ buf.len = width) then
      (if buf.pop.len ≠ 0 ∧ base = 16 then buf.pop.pop else buf.pop) else buf).chars =
      buf.chars.take (hashKept base width buf.len) := by
  rw [hashKept]
  by_cases hcut : buf.len ≠ 0 ∧ buf.len = width
  · rw [if_pos ⟨hprecision, hcut.1, Or.inr hcut.2⟩, if_pos hcut, buf.len_pop]
    by_cases htwo : buf.len - 1 ≠ 0 ∧ base = 16
    · rw [if_pos htwo, if_pos htwo, NtoaBuf.chars_pop, NtoaBuf.chars_pop, NtoaBuf.len_pop, List.take_take,
        Nat.min_eq_left (Nat.sub_le ..)]
      rfl
    · rw [if_neg htwo, if_neg htwo, NtoaBuf.chars_pop]
  · have hno : ¬(flags.precision = false ∧ buf.len ≠ 0 ∧ (buf.len = 0 ∨ buf.len = width)) :=
      fun h => hcut ⟨h.2.1, h.2.2.resolve_left h.2.1⟩
    rw [if_neg hno, if_neg hcut]
    exact (List.take_of_length_le (Nat.le_refl _)).symm

theorem hashKept_le (base width len : Nat) : hashKept base width len ≤ len := by
  rw [hashKept]
  split_ifs <;> omega

theorem handleHash_chars (hhash : flags.hash = true) (hprecision : flags.precision = false)
    (hbase : base = 16 ∨ base = 8) (hroom : hashKept base width buf.len + (if base = 16 then 2 else 1) ≤ 32) :
    (handleHash buf base 0 width flags).chars =
      buf.chars.take (hashKept base width buf.len) ++ (hashChars base flags.uppercase).reverse := by
  have hkept := hashKept_chars buf base width hprecision
  rw [handleHash, if_pos hhash]
  simp only
  generalize (if flags.precision = false ∧ buf.len ≠ 0 ∧ (buf.len = 0 ∨ buf.len = width) then
      (if buf.pop.len ≠ 0 ∧ base = 16 then buf.pop.pop else buf.pop) else buf) = rest at hkept ⊢
  have hlen : rest.len = hashKept base width buf.len := by
    rw [NtoaBuf.len, hkept, List.length_take]
    exact Nat.min_eq_left (hashKept_le ..)
  rcases hbase with rfl | rfl
  · rw [if_pos rfl] at hroom
    have hx : ∀ x, ((rest.push x).push 0x30).chars = rest.chars ++ [x, 0x30] := fun x => by
      rw [NtoaBuf.chars_push_of_lt _ _ (by rw [rest.len_push_of_lt x (by omega)]; omega),
        rest.chars_push_of_lt x (by omega), List.append_assoc]
      rfl
    cases flags.uppercase with
    | true => exact (hx _).trans (by rw [hkept]; rfl)
    | false => exact (hx _).trans (by rw [hkept]; rfl)
  · rw [if_neg (by decide)] at hroom
    exact (rest.chars_push_of_lt _ (by omega)).trans (by rw [hkept]; rfl)

theorem digits_length_le (hbase : 2 ≤ base) (hvalue : value ≠ 0) (n : Nat) :
    (digitsOf base value).length ≤ n ↔ value < base ^ n := by
  rw [digitsOf, if_neg hvalue]
  exact Nat.digits_length_le_iff hbase value

theorem len_ntoaDigits (hbase : 2 ≤ base) (hprecision : flags.precision = false) :
    (ntoaDigits value base flags).len = min 32 (digitsOf base value).length := by
  rw [ntoaDigits, if_pos (Or.inl hprecision), NtoaBuf.len, digitLoop_chars hbase (by decide) (by decide)]
  show ([] ++ _ : List (BitVec 8)).length = _
  rw [List.nil_append, List.length_map, List.length_take]
  rfl

/-- What a number of `n` digits keeps of them when `len` characters stand in the array. -/
theorem le_hashKept {n len : Nat} (base width : Nat) (hn : 0 < n) (hlen : n ≤ len) :
    n ≤ hashKept base width len ↔ ¬(len = width ∧ (n = width ∨ (base = 16 ∧ n + 1 = width))) := by
  rw [hashKept]
  split_ifs <;> omega

/-- A digit of the argument is lost to the prefix: the number is exactly as wide as its field, or
a hexadecimal one has a single zero in front. -/
def DropsDigit (c : BitVec 8) (d : Directive) (word : BitVec 64) : Prop :=
  let digits := (digitsOf (integerBase c) (integerValue c d.flags word).natAbs).length
  digits = d.width ∨
    (integerBase c = 16 ∧ d.flags.zeropad = true ∧ d.flags.left = false ∧ digits + 1 = d.width)

instance (c : BitVec 8) (d : Directive) (word : BitVec 64) : Decidable (DropsDigit c d word) :=
  inferInstanceAs (Decidable (_ ∨ _))

/-- The text is the prefix and the digits between spaces. -/
theorem field_of_reverse {core : List (BitVec 8)} (width : Nat) (flags : Flags) (hcore : buf.chars.reverse = core) :
    ∃ m n, field buf width flags = List.replicate m 0x20 ++ core ++ List.replicate n 0x20 := by
  rw [field, hcore]
  split_ifs
  · exact ⟨0, _, rfl⟩
  · exact ⟨0, 0, (List.append_nil _).symm⟩
  · exact ⟨_, 0, (List.append_nil _).symm⟩

theorem integerFlags_hash_of_ne (hbase : integerBase c ≠ 10) (hunsigned : ¬isSigned c) (flags : Flags) :
    (integerFlags c flags).hash = flags.hash ∧ (integerFlags c flags).plus = false ∧
      (integerFlags c flags).space = false := by
  rw [integerFlags]
  simp only [if_neg hbase, if_neg hunsigned]
  split_ifs <;> exact ⟨rfl, rfl, rfl⟩

/-- A number with `#` is spaces, prefix, digits and spaces; a digit is lost to the prefix if the number
is exactly as wide as its field, or a hexadecimal one has a single zero in front. -/
theorem ntoaText_alternate (hbase : base = 16 ∨ base = 8) (hne : value ≠ 0) (hlt : value < 2 ^ 64)
    (hhash : flags.hash = true) (hprec : flags.precision = false) (hplus : flags.plus = false)
    (hspace : flags.space = false) (hroom : flags.left = false → flags.zeropad = true → width ≤ 32) :
    ∃ m n digits, ntoaText value false base 0 width flags = List.replicate m 0x20 ++
        (hashChars base flags.uppercase ++ digits) ++ List.replicate n 0x20 ∧
      (readNat base digits = some value ↔ ¬((digitsOf base value).length = width ∨
        (base = 16 ∧ flags.zeropad = true ∧ flags.left = false ∧ (digitsOf base value).length + 1 = width))) := by
  have hbase2 : 2 ≤ base := by omega
  have hdigits := digits_length_le hbase2 hne
  have hsmall : (digitsOf base value).length ≤ 22 := (hdigits 22).mpr (by rcases hbase with rfl | rfl <;> omega)
  have hpos : 0 < (digitsOf base value).length := Nat.pos_of_ne_zero fun h0 => hne (by
    have hone := (hdigits 0).mp (Nat.le_of_eq h0)
    rwa [Nat.pow_zero, Nat.lt_one_iff] at hone)
  have hflags : ntoaFlags value flags = flags := if_neg hne
  have hwidth : ntoaWidth false width flags = width := by
    rw [ntoaWidth, hplus, hspace, if_neg (by simp)]
  obtain ⟨ds, hchars, hds, hofDigits⟩ := exists_digits hbase2 value 0 width flags
  have hlen := len_padZeros (ntoaDigits value base flags) 0 width flags
  rw [len_ntoaDigits hbase2 hprec, Nat.min_eq_right (by omega)] at hlen
  generalize hpadded : padZeros (ntoaDigits value base flags) 0 width flags = padded at hchars hlen
  have hmod : value % base ^ 32 = value :=
    Nat.mod_eq_of_lt ((hdigits 32).mp (by omega))
  rw [hmod] at hofDigits
  have hdigitsLe : (digitsOf base value).length ≤ padded.len := by rw [hlen]; split <;> omega
  have hkeep := le_hashKept base width hpos hdigitsLe
  have hroom' : hashKept base width padded.len + (if base = 16 then 2 else 1) ≤ 32 := by
    rw [hashKept, hlen]
    cases hl : flags.left with
    | true =>
        simp only [if_true]
        split_ifs <;> omega
    | false =>
        cases hz : flags.zeropad with
        | true =>
            have hw := hroom hl hz
            simp only [if_true, Bool.false_eq_true, if_false]
            split_ifs <;> omega
        | false =>
            simp only [Bool.false_eq_true, if_false]
            split_ifs <;> omega
  have hhashed := handleHash_chars hhash hprec hbase hroom'
  have hreverse : (ntoaBuf value false base 0 width flags).chars.reverse = hashChars base flags.uppercase ++
      ((ds.take (hashKept base width padded.len)).map (digitChar flags.uppercase)).reverse := by
    rw [ntoaBuf, hflags, hwidth]
    simp only [hpadded, pushSign, hplus, hspace, Bool.false_eq_true, if_false]
    rw [hhashed, List.reverse_append, List.reverse_reverse, hchars, List.map_take]
  obtain ⟨m, n, hfield⟩ := field_of_reverse width flags hreverse
  refine ⟨m, n, _, by rw [ntoaText, hwidth, hfield], ?_⟩
  have hread : readNat base ((ds.take (hashKept base width padded.len)).map (digitChar flags.uppercase)).reverse =
      some (value % base ^ hashKept base width padded.len) := by
    rw [readNat_digits (fun d hd => digitValue_digitChar _ (by omega)) (fun d hd => hds d (List.mem_of_mem_take hd)),
      ← Nat.ofDigits_mod_pow_eq_ofDigits_take _ (by omega) _ hds, hofDigits]
  rw [hread, Option.some_inj, Nat.mod_eq_iff_lt (Nat.pow_pos (by omega)).ne', ← hdigits, hkeep, not_iff_not, hlen]
  cases hl : flags.left with
  | true =>
      simp only [if_true, Bool.true_eq_false, false_and, and_false, or_false]
      omega
  | false =>
      cases hz : flags.zeropad with
      | true =>
          have hw := hroom hl hz
          simp only [if_true, Bool.false_eq_true, if_false, true_and]
          omega
      | false =>
          simp only [Bool.false_eq_true, if_false, false_and, and_false, or_false]
          omega

end

end Kprintf
end GuideOS
