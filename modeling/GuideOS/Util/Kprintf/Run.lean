import GuideOS.Util.Kprintf.Grammar

/-!
# Formats in memory

The code writes the text of the format, as long as the output leaves the format and the strings
alone.  The buffer, the return value and the characters that are sent follow from it.
-/

namespace GuideOS
namespace Kprintf

open Lib

/-! ## What the output leaves alone -/

/-- The first `n` characters of the output leave the address `a` alone. -/
def Sink.Spares (k : Sink) (n a : Nat) : Prop :=
  k.out = .outBuffer → ∀ i < min k.maxlen n, (k.buffer + i) % 2 ^ 64 ≠ a

section

variable {k : Sink} {n a : Nat} {s : Output} {cs : List (BitVec 8)}

theorem put_mem (h : k.Spares n a) (hidx : s.idx < n) (c : BitVec 8) : (s.put k c).world.mem a = s.world.mem a := by
  rw [Output.put, Sink.put]
  cases hout : k.out with
  | outBuffer =>
      simp only
      split
      · rename_i hroom
        exact Function.update_of_ne (Ne.symm (h hout s.idx (Nat.lt_min.mpr ⟨hroom, hidx⟩))) _ _
      · rfl
  | outNull => rfl
  | outChar =>
      simp only
      split
      · rfl
      · rfl
  | outFct =>
      simp only
      split
      · rfl
      · rfl

theorem puts_mem (h : k.Spares n a) (hlen : s.idx + cs.length ≤ n) (hn : n < 2 ^ 64) :
    (s.puts k cs).world.mem a = s.world.mem a := by
  induction cs generalizing s with
  | nil => rfl
  | cons c cs ih =>
      rw [List.length_cons] at hlen
      have hidx : (s.put k c).idx = s.idx + 1 := Nat.mod_eq_of_lt (by omega)
      rw [Output.puts, ih (by omega), put_mem h (by omega)]

end

/-! ## Reading the format -/

/-- The string `cs` begins at `a` and ends at `e`, and all of it is in `q`. -/
structure Rest (q : Nat → Prop) (m : Bytes) (e a : Nat) (cs : List (BitVec 8)) : Prop where
  str : CStr m a cs
  lt : a < 2 ^ 64
  finish : (a + cs.length) % 2 ^ 64 = e
  inside : ∀ i ≤ cs.length, q ((a + i) % 2 ^ 64)

section

variable {q : Nat → Prop} {m : Bytes} {e a fuel : Nat} {c : BitVec 8} {cs : List (BitVec 8)}

theorem Rest.next (h : Rest q m e a (c :: cs)) : Rest q m e ((a + 1) % 2 ^ 64) cs := by
  refine ⟨h.str.2.2, Nat.mod_lt _ (Nat.two_pow_pos 64), ?_, fun i hi => ?_⟩
  · rw [Nat.mod_add_mod, Nat.add_assoc, Nat.add_comm 1]
    exact h.finish
  · rw [Nat.mod_add_mod, Nat.add_assoc, Nat.add_comm 1]
    exact h.inside (i + 1) (Nat.succ_le_succ hi)

theorem Rest.congr {m' : Bytes} (h : Rest q m e a cs) (hm : ∀ b, q b → m' b = m b) : Rest q m' e a cs :=
  ⟨h.str.congr h.lt fun i hi => hm _ (h.inside i hi), h.lt, h.finish, h.inside⟩

theorem Rest.unique {a' : Nat} (h : Rest q m e a cs) (h' : Rest q m e a' cs) : a = a' := by
  have h₁ := h.finish
  have h₂ := h'.finish
  have hlt := h.lt
  have hlt' := h'.lt
  omega

theorem Rest.nil (h : Rest q m e a []) : a = e := by
  have hend := h.finish
  rwa [List.length_nil, Nat.add_zero, Nat.mod_eq_of_lt h.lt] at hend

theorem Rest.head (h : Rest q m e a cs) : m a = cs.headD 0 := by
  cases cs with
  | nil => exact h.str
  | cons c cs => exact h.str.1

theorem setFlag_isSome (flags : Flags) (c : BitVec 8) : (setFlag flags c).isSome = isFlag c := by
  rw [isFlag, setFlag]
  split_ifs <;> simp_all

/-- The flags of the characters before and behind. -/
theorem foldl_setFlag (cs : List (BitVec 8)) (flags : Flags) :
    cs.foldl (fun flags c => (setFlag flags c).getD flags) flags =
      { flags with
        zeropad := flags.zeropad || (flagsOf cs).zeropad
        left := flags.left || (flagsOf cs).left
        plus := flags.plus || (flagsOf cs).plus
        space := flags.space || (flagsOf cs).space
        hash := flags.hash || (flagsOf cs).hash } := by
  induction cs generalizing flags with
  | nil => simp [flagsOf]
  | cons c cs ih =>
      rw [List.foldl_cons, ih, setFlag]
      cases flags
      split_ifs <;> simp_all [flagsOf, eq_comm]

theorem foldl_setFlag_none (cs : List (BitVec 8)) :
    cs.foldl (fun flags c => (setFlag flags c).getD flags) .none = flagsOf cs := by
  rw [foldl_setFlag]
  rfl

theorem flagLoop_run (h : Rest q m e a cs) (flags : Flags) (hfuel : cs.length < fuel) :
    ∃ a', flagLoop m fuel flags a =
        some ((cs.takeWhile isFlag).foldl (fun flags c => (setFlag flags c).getD flags) flags, a') ∧
      Rest q m e a' (cs.dropWhile isFlag) := by
  induction fuel generalizing a cs flags with
  | zero => omega
  | succ fuel ih =>
      rw [flagLoop, h.head]
      cases cs with
      | nil => exact ⟨a, rfl, h⟩
      | cons c cs =>
          have hflag := setFlag_isSome flags c
          rw [List.headD_cons]
          cases hset : setFlag flags c with
          | none =>
              rw [hset] at hflag
              have hc : ¬isFlag c = true := fun hc => Bool.false_ne_true (hflag.trans hc)
              rw [List.takeWhile_cons_of_neg hc, List.dropWhile_cons_of_neg hc]
              exact ⟨a, rfl, h⟩
          | some flags' =>
              rw [hset] at hflag
              have hc : isFlag c = true := hflag.symm
              obtain ⟨a', hrun, hrest⟩ := ih h.next flags' (Nat.lt_of_succ_lt_succ hfuel)
              refine ⟨a', ?_, by rw [List.dropWhile_cons_of_pos hc]; exact hrest⟩
              rw [List.takeWhile_cons_of_pos hc, List.foldl_cons, hset, Option.getD_some]
              exact hrun

theorem isDigit_zero : isDigit 0 = false := by decide

theorem atoi_run (h : Rest q m e a cs) (i : Nat) (hfuel : cs.length < fuel) :
    ∃ a', atoi m fuel i a = some ((cs.takeWhile isDigit).foldl
        (fun i c => (i * 10 + (c.toNat - 0x30)) % 2 ^ 32) i, a') ∧
      Rest q m e a' (cs.dropWhile isDigit) := by
  induction fuel generalizing a cs i with
  | zero => omega
  | succ fuel ih =>
      rw [atoi, h.head]
      cases cs with
      | nil =>
          refine ⟨a, ?_, h⟩
          rw [List.headD_nil, isDigit_zero]
          rfl
      | cons c cs =>
          rw [List.headD_cons]
          by_cases hc : isDigit c
          · obtain ⟨a', hrun, hrest⟩ := ih h.next ((i * 10 + (c.toNat - 0x30)) % 2 ^ 32)
              (Nat.lt_of_succ_lt_succ hfuel)
            refine ⟨a', ?_, by rw [List.dropWhile_cons_of_pos hc]; exact hrest⟩
            rw [if_pos hc, List.takeWhile_cons_of_pos hc, List.foldl_cons]
            exact hrun
          · refine ⟨a, ?_, by rw [List.dropWhile_cons_of_neg hc]; exact h⟩
            rw [if_neg hc, List.takeWhile_cons_of_neg hc, List.foldl_nil]

theorem scanWidth_run (h : Rest q m e a cs) (flags : Flags) (va : VaList) (hfuel : cs.length < fuel) :
    ∃ a', scanWidth m fuel flags a va =
        some ⟨((takeField cs).1.asWidth flags va).1, a', ((takeField cs).1.asWidth flags va).2⟩ ∧
      Rest q m e a' (takeField cs).2 := by
  rw [scanWidth, h.head]
  cases cs with
  | nil =>
      rw [List.headD_nil, isDigit_zero, if_neg Bool.false_ne_true, if_neg (by decide)]
      exact ⟨a, rfl, h⟩
  | cons c cs =>
      rw [List.headD_cons, takeField]
      by_cases hdigit : isDigit c
      · obtain ⟨a', hrun, hrest⟩ := atoi_run h 0 hfuel
        rw [if_pos hdigit, if_pos hdigit, hrun]
        exact ⟨a', rfl, hrest⟩
      · rw [if_neg hdigit, if_neg hdigit]
        by_cases hstar : c = 0x2A
        · rw [if_pos hstar, if_pos hstar]
          refine ⟨(a + 1) % 2 ^ 64, ?_, h.next⟩
          simp only [Field.asWidth]
          split
          · rfl
          · rfl
        · rw [if_neg hstar, if_neg hstar]
          exact ⟨a, rfl, h⟩

theorem scanPrecision_run (h : Rest q m e a cs) (dir : Directive) (va : VaList) (hfuel : cs.length < fuel)
    (hdir : dir.flags.precision = false ∧ dir.precision = 0) :
    ∃ a', scanPrecision m fuel ⟨dir, a, va⟩ =
        some ⟨⟨{ dir.flags with precision := (takePrecision cs).1.isSome }, dir.width,
            (((takePrecision cs).1.map fun f => f.asPrecision va).getD (0, va)).1⟩, a',
          (((takePrecision cs).1.map fun f => f.asPrecision va).getD (0, va)).2⟩ ∧
      Rest q m e a' (takePrecision cs).2 := by
  obtain ⟨⟨zeropad, left, plus, space, hash, uppercase, char, short, long, longLong, precisionFlag⟩, width,
    precision⟩ := dir
  obtain ⟨hflag, hprec⟩ := hdir
  simp only at hflag hprec
  subst hflag hprec
  rw [scanPrecision]
  simp only
  rw [h.head]
  cases cs with
  | nil => exact ⟨a, rfl, h⟩
  | cons c cs =>
      rw [List.headD_cons, takePrecision]
      by_cases hdot : c = 0x2E
      · have hnext := h.next
        rw [if_pos hdot, if_pos hdot, hnext.head]
        cases cs with
        | nil =>
            rw [List.headD_nil, isDigit_zero, if_neg Bool.false_ne_true, if_neg (by decide)]
            exact ⟨_, rfl, hnext⟩
        | cons c' cs =>
            rw [List.headD_cons, takeField]
            by_cases hdigit : isDigit c'
            · have hfuel' : (c' :: cs).length < fuel := Nat.lt_of_succ_lt hfuel
              obtain ⟨a', hrun, hrest⟩ := atoi_run hnext 0 hfuel'
              rw [if_pos hdigit, if_pos hdigit, hrun]
              exact ⟨a', rfl, hrest⟩
            · rw [if_neg hdigit, if_neg hdigit]
              by_cases hstar : c' = 0x2A
              · rw [if_pos hstar, if_pos hstar]
                exact ⟨_, rfl, hnext.next⟩
              · rw [if_neg hstar, if_neg hstar]
                exact ⟨_, rfl, hnext⟩
      · rw [if_neg hdot, if_neg hdot]
        exact ⟨a, rfl, h⟩

theorem scanLength_run (h : Rest q m e a cs) (dir : Directive) (va : VaList) :
    ∃ a', scanLength m ⟨dir, a, va⟩ = ⟨{ dir with flags := lengthFlags dir.flags (takeLength cs).1 }, a', va⟩ ∧
      Rest q m e a' (takeLength cs).2 := by
  rw [scanLength]
  simp only
  rw [h.head]
  cases cs with
  | nil => exact ⟨a, rfl, h⟩
  | cons c cs =>
      have hnext := h.next
      rw [List.headD_cons, hnext.head, takeLength]
      by_cases hl : c = 0x6C
      · subst hl
        rw [if_pos rfl, if_pos (Or.inl rfl)]
        cases cs with
        | nil => exact ⟨_, rfl, hnext⟩
        | cons c' cs =>
            rw [List.headD_cons, List.head?_cons]
            by_cases hc' : c' = 0x6C
            · rw [if_pos hc', if_pos (congrArg some hc')]
              exact ⟨_, rfl, hnext.next⟩
            · rw [if_neg hc', if_neg (fun h => hc' (Option.some.inj h))]
              exact ⟨_, rfl, hnext⟩
      · rw [if_neg hl]
        by_cases hh : c = 0x68
        · subst hh
          rw [if_pos rfl, if_pos (Or.inr rfl)]
          cases cs with
          | nil => exact ⟨_, rfl, hnext⟩
          | cons c' cs =>
              rw [List.headD_cons, List.head?_cons]
              by_cases hc' : c' = 0x68
              · rw [if_pos hc', if_pos (congrArg some hc')]
                exact ⟨_, rfl, hnext.next⟩
              · rw [if_neg hc', if_neg (fun h => hc' (Option.some.inj h))]
                exact ⟨_, rfl, hnext⟩
        · rw [if_neg hh, if_neg (not_or.mpr ⟨hl, hh⟩)]
          by_cases hother : c = 0x74 ∨ c = 0x6A ∨ c = 0x7A
          · rw [if_pos hother, if_pos hother]
            refine ⟨_, ?_, hnext⟩
            rw [lengthFlags, if_neg hh]
          · rw [if_neg hother, if_neg hother]
            exact ⟨a, rfl, h⟩

end

/-! ## Characters and strings -/

/-- The string `cs` at `p` can be read while the output is written: up to its terminator, or
as far as the precision goes. -/
structure Readable (k : Sink) (n : Nat) (m : Bytes) (d : Directive) (p : Nat) (cs : List (BitVec 8)) : Prop where
  chars : ∀ i (hi : i < cs.length), m ((p + i) % 2 ^ 64) = cs[i] ∧ cs[i] ≠ 0 ∧ k.Spares n ((p + i) % 2 ^ 64)
  stop : (m ((p + cs.length) % 2 ^ 64) = 0 ∧ k.Spares n ((p + cs.length) % 2 ^ 64)) ∨
    (d.flags.precision = true ∧ 0 < d.precision ∧ d.precision ≤ cs.length)

section

variable {k : Sink} {n p fuel prec : Nat} {m : Bytes} {s : Output} {d : Directive} {cs : List (BitVec 8)}

theorem justify_eq (k : Sink) (s : Output) (left : Bool) (n : Nat) (cs : List (BitVec 8)) :
    s.puts k (justify left n cs) =
      if left then (s.puts k cs).pad k n else (s.pad k n).puts k cs := by
  rw [justify]
  split
  · rw [puts_append, pad_eq]
  · rw [puts_append, pad_eq]

theorem putChar_eq (k : Sink) (s : Output) (d : Directive) (word : BitVec 64) :
    putChar k s d word = s.puts k (charText d word) := by
  rw [putChar, charText, justify_eq]
  cases d.flags.left <;> rfl

theorem putPointer_eq (k : Sink) (hs : s.idx < 2 ^ 64) (d : Directive) (word : BitVec 64) :
    putPointer k s d word = s.puts k (pointerText d word) := by
  rw [pointerText, ← ntoaText_eq (Or.inl rfl)]
  exact ntoa_eq k hs _ _ _ _ _ _

/-- The string behind its first character -/
theorem chars_tail {q : Nat → Prop} {c : BitVec 8}
    (h : ∀ i (hi : i < (c :: cs).length), m ((p + i) % 2 ^ 64) = (c :: cs)[i] ∧ (c :: cs)[i] ≠ 0 ∧
      q ((p + i) % 2 ^ 64)) :
    ∀ i (hi : i < cs.length), m (((p + 1) % 2 ^ 64 + i) % 2 ^ 64) = cs[i] ∧ cs[i] ≠ 0 ∧
      q (((p + 1) % 2 ^ 64 + i) % 2 ^ 64) := by
  intro i hi
  have hi' := h (i + 1) (Nat.succ_lt_succ hi)
  rwa [show p + (i + 1) = p + 1 + i by omega, ← Nat.mod_add_mod] at hi'

theorem strnlenS_run {str maxsize : Nat} (hp : p < 2 ^ 64)
    (hchars : ∀ i (hi : i < cs.length), m ((p + i) % 2 ^ 64) = cs[i] ∧ cs[i] ≠ 0 ∧ True)
    (hstop : m ((p + cs.length) % 2 ^ 64) = 0 ∨ maxsize ≤ cs.length) (hfuel : cs.length < fuel) :
    strnlenS m str fuel p maxsize = some (((p + min cs.length maxsize) % 2 ^ 64 + 2 ^ 64 - str) % 2 ^ 32) := by
  induction fuel generalizing p cs maxsize with
  | zero => omega
  | succ fuel ih =>
      rw [strnlenS]
      cases cs with
      | nil =>
          rw [List.length_nil, Nat.add_zero, Nat.mod_eq_of_lt hp] at hstop
          have hend : ¬(m p ≠ 0 ∧ maxsize ≠ 0) := fun h => by
            rcases hstop with hstop | hstop
            · exact h.1 hstop
            · exact h.2 (Nat.le_zero.mp hstop)
          rw [if_neg hend, List.length_nil, Nat.zero_min, Nat.add_zero, Nat.mod_eq_of_lt hp]
      | cons c cs =>
          obtain ⟨hchar, hne, _⟩ := hchars 0 (Nat.succ_pos _)
          rw [Nat.add_zero, Nat.mod_eq_of_lt hp] at hchar
          by_cases hsize : maxsize = 0
          · rw [if_neg (fun h => h.2 hsize), hsize, Nat.min_zero, Nat.add_zero, Nat.mod_eq_of_lt hp]
          · rw [if_pos ⟨by rw [hchar]; exact hne, hsize⟩, ih (Nat.mod_lt _ (Nat.two_pow_pos 64))
              (chars_tail (q := fun _ => True) hchars) ?_ (Nat.lt_of_succ_lt_succ hfuel), Nat.mod_add_mod,
              List.length_cons, show p + 1 + min cs.length (maxsize - 1) = p + min (cs.length + 1) maxsize by omega]
            rw [List.length_cons] at hstop
            rw [Nat.mod_add_mod, show p + 1 + cs.length = p + (cs.length + 1) by omega]
            exact hstop.imp id fun h => by omega

theorem stringLoop_run {limited : Bool} (hp : p < 2 ^ 64) (hmem : ∀ b, k.Spares n b → s.world.mem b = m b)
    (hn : n < 2 ^ 64)
    (hchars : ∀ i (hi : i < cs.length), m ((p + i) % 2 ^ 64) = cs[i] ∧ cs[i] ≠ 0 ∧ k.Spares n ((p + i) % 2 ^ 64))
    (hstop : (m ((p + cs.length) % 2 ^ 64) = 0 ∧ k.Spares n ((p + cs.length) % 2 ^ 64)) ∨
      (limited = true ∧ prec ≤ cs.length))
    (hlen : s.idx + (if limited then cs.take prec else cs).length ≤ n) (hfuel : cs.length < fuel) :
    stringLoop k limited fuel s p prec = some (s.puts k (if limited then cs.take prec else cs)) := by
  induction fuel generalizing p cs s prec with
  | zero => omega
  | succ fuel ih =>
      rw [stringLoop]
      cases cs with
      | nil =>
          rw [List.length_nil, Nat.add_zero, Nat.mod_eq_of_lt hp] at hstop
          have hend : ¬(s.world.mem p ≠ 0 ∧ (limited = false ∨ prec ≠ 0)) := fun ⟨hne, hlimit⟩ => by
            rcases hstop with ⟨hnul, hspare⟩ | ⟨hlimited, hprec⟩
            · exact hne ((hmem p hspare).trans hnul)
            · rw [hlimited] at hlimit
              exact hlimit.elim (fun h => absurd h (by decide)) fun h => h (Nat.le_zero.mp hprec)
          rw [if_neg hend, List.take_nil, ite_self]
          rfl
      | cons c cs =>
          obtain ⟨hchar, hne, hspare⟩ := hchars 0 (Nat.succ_pos _)
          rw [Nat.add_zero, Nat.mod_eq_of_lt hp] at hchar hspare
          have hread : s.world.mem p = c := (hmem p hspare).trans hchar
          by_cases hgo : limited = false ∨ prec ≠ 0
          · have htext : (if limited then (c :: cs).take prec else c :: cs) =
                c :: (if limited then cs.take (prec - 1) else cs) := by
              split
              · rename_i hlimited
                obtain ⟨prec', rfl⟩ : ∃ prec', prec = prec' + 1 := by
                  rw [hlimited] at hgo
                  exact ⟨prec - 1, by have := hgo.resolve_left (by decide); omega⟩
                rfl
              · rfl
            rw [htext] at hlen ⊢
            rw [List.length_cons] at hlen
            have hidx : (s.put k c).idx = s.idx + 1 := Nat.mod_eq_of_lt (by omega)
            rw [List.length_cons, show p + (cs.length + 1) = p + 1 + cs.length by omega, ← Nat.mod_add_mod] at hstop
            rw [hread, if_pos ⟨hne, hgo⟩]
            refine ih (Nat.mod_lt _ (Nat.two_pow_pos 64)) (fun b hb => ?_) (chars_tail (q := k.Spares n) hchars)
              (hstop.imp id fun h => ⟨h.1, by omega⟩) (by rw [hidx]; omega) (Nat.lt_of_succ_lt_succ hfuel)
            rw [put_mem hb (by omega)]
            exact hmem b hb
          · obtain ⟨hlimited, hprec⟩ := not_or.mp hgo
            rw [not_not] at hprec
            rw [if_neg (fun h => hgo h.2), hprec, List.take_zero, if_pos (by simpa using hlimited)]
            rfl

theorem putString_run (hn : n < 2 ^ 64) (hmem : ∀ b, k.Spares n b → s.world.mem b = m b) {word : BitVec 64}
    (hread : Readable k n m d word.toNat cs) (hd : d.flags.precision = false → d.precision = 0)
    (hlen : s.idx + (stringText d cs).length ≤ n) (hfuel : cs.length < fuel) :
    putString k fuel s d word = some (s.puts k (stringText d cs)) := by
  have hp : word.toNat < 2 ^ 64 := word.isLt
  have hlong : m ((word.toNat + cs.length) % 2 ^ 64) = 0 → cs.length < 2 ^ 64 := fun hnul =>
    (cstr_of_char hp (fun c hc => by
      obtain ⟨i, hi, rfl⟩ := List.getElem_of_mem hc
      exact (hread.chars i hi).2.1) (fun i hi => (hread.chars i hi).1) hnul).length_lt hp
  have hstrlen : strnlenS s.world.mem word.toNat fuel word.toNat (if d.precision ≠ 0 then d.precision else 2 ^ 64 - 1) =
      some (min cs.length (if d.precision ≠ 0 then d.precision else 2 ^ 64 - 1) % 2 ^ 32) := by
    rw [strnlenS_run hp (fun i hi => ⟨(hmem _ (hread.chars i hi).2.2).trans (hread.chars i hi).1,
      (hread.chars i hi).2.1, trivial⟩) ?_ hfuel]
    · congr 1
      omega
    · refine hread.stop.imp (fun h => (hmem _ h.2).trans h.1) fun h => ?_
      rw [if_pos (by omega)]
      exact h.2.2
  have hshown : (if d.flags.precision = true then
      min (min cs.length (if d.precision ≠ 0 then d.precision else 2 ^ 64 - 1) % 2 ^ 32) d.precision
      else min cs.length (if d.precision ≠ 0 then d.precision else 2 ^ 64 - 1) % 2 ^ 32) =
      (shown d cs).length % 2 ^ 32 := by
    rw [shown]
    cases hflag : d.flags.precision with
    | true =>
        rw [if_pos rfl, if_pos rfl, List.length_take]
        split
        · omega
        · omega
    | false =>
        rw [if_neg Bool.false_ne_true, if_neg Bool.false_ne_true, hd hflag, if_neg (fun h => h rfl)]
        rcases hread.stop with hnul | hlimit
        · have := hlong hnul.1
          rw [Nat.min_eq_left (by omega)]
        · rw [hflag] at hlimit
          exact absurd hlimit.1 Bool.false_ne_true
  have hloop : ∀ s' : Output, (∀ b, k.Spares n b → s'.world.mem b = m b) → s'.idx + (shown d cs).length ≤ n →
      stringLoop k d.flags.precision fuel s' word.toNat d.precision = some (s'.puts k (shown d cs)) :=
    fun s' hmem' hlen' => stringLoop_run hp hmem' hn hread.chars
      (hread.stop.imp id fun h => ⟨h.1, h.2.2⟩) hlen' hfuel
  have hlen' : s.idx + (d.width - (shown d cs).length % 2 ^ 32) + (shown d cs).length ≤ n := by
    rw [stringText, justify] at hlen
    split at hlen
    · rw [List.length_append, List.length_replicate] at hlen
      omega
    · rw [List.length_append, List.length_replicate] at hlen
      omega
  rw [putString]
  simp only
  rw [hstrlen, Option.bind_some, stringText, justify_eq]
  simp only [hshown]
  cases d.flags.left with
  | true =>
      simp only [if_true]
      rw [hloop s hmem (by omega), Option.map_some]
  | false =>
      have hpadlen : (List.replicate (d.width - (shown d cs).length % 2 ^ 32) (0x20 : BitVec 8)).length =
          d.width - (shown d cs).length % 2 ^ 32 := List.length_replicate
      have hpad : ∀ b, k.Spares n b → (s.pad k (d.width - (shown d cs).length % 2 ^ 32)).world.mem b = m b :=
        fun b hb => by
          rw [pad_eq, puts_mem hb (by rw [hpadlen]; omega) hn]
          exact hmem b hb
      simp only [Bool.false_eq_true, if_false]
      rw [hloop _ hpad (by rw [pad_eq, idx_puts (by omega), hpadlen, Nat.mod_eq_of_lt (by omega)]; exact hlen'),
        Option.map_some]

end

/-! ## Directives -/

/-- Where a directive writes a string, the string can be read. -/
def Spec.Reads (k : Sink) (n : Nat) (m : Bytes) (str : BitVec 64 → List (BitVec 8)) (sp : Spec) (va : VaList) : Prop :=
  sp.specifier = 0x73 →
    Readable k n m (sp.eval va).1 (sp.eval va).2.next.1.toNat (str (sp.eval va).2.next.1)

def Reads (k : Sink) (n : Nat) (m : Bytes) (str : BitVec 64 → List (BitVec 8)) : List Item → VaList → Prop
  | [], _ => True
  | .lit _ :: items, va => Reads k n m str items va
  | .spec sp :: items, va => sp.Reads k n m str va ∧ Reads k n m str items (sp.expand str va).2

section

variable {k : Sink} {n e a : Nat} {m : Bytes} {s : Output} {cs : List (BitVec 8)} {va : VaList}
  {str : BitVec 64 → List (BitVec 8)}

theorem flagsOf_precision (cs : List (BitVec 8)) : (flagsOf cs).precision = false := by
  rfl

/-- Before the precision is read there is none. -/
theorem asWidth_precision (f : Field) {flags : Flags} (hflags : flags.precision = false) (va : VaList) :
    (f.asWidth flags va).1.flags.precision = false ∧ (f.asWidth flags va).1.precision = 0 := by
  cases f with
  | absent => exact ⟨hflags, rfl⟩
  | digits ds => exact ⟨hflags, rfl⟩
  | star =>
      simp only [Field.asWidth]
      split
      · exact ⟨hflags, rfl⟩
      · exact ⟨hflags, rfl⟩

theorem lengthFlags_precision (flags : Flags) (cs : List (BitVec 8)) :
    (lengthFlags flags cs).precision = flags.precision := by
  cases cs with
  | nil => rfl
  | cons c cs =>
      cases cs with
      | nil =>
          rw [lengthFlags]
          split <;> rfl
      | cons c' cs =>
          rw [lengthFlags]
          split <;> rfl

theorem eval_precision (sp : Spec) (va : VaList) :
    (sp.eval va).1.flags.precision = false → (sp.eval va).1.precision = 0 := by
  rw [Spec.eval]
  simp only [lengthFlags_precision]
  cases sp.precision with
  | none => exact fun _ => rfl
  | some f => exact fun h => absurd h.symm Bool.false_ne_true

theorem convert_run {sp : Spec} {fuel : Nat} (hn : n < 2 ^ 64) (hmem : ∀ b, k.Spares n b → s.world.mem b = m b)
    (hread : sp.Reads k n m str va) (hlen : s.idx + (sp.expand str va).1.length ≤ n)
    (hfuel : (str (sp.eval va).2.next.1).length < fuel) :
    convert k fuel s sp.specifier (sp.eval va).1 (sp.eval va).2 =
      some (s.puts k (sp.expand str va).1, (sp.expand str va).2) := by
  have hidx : s.idx < 2 ^ 64 := by omega
  rw [Spec.expand] at hlen ⊢
  rw [convert]
  simp only at hlen ⊢
  split_ifs at hlen ⊢ with hint hchar hstr hptr hpercent
  · rw [putInteger_eq k hidx]
  · rw [putChar_eq]
  · rw [putString_run hn hmem (hread hstr) (eval_precision sp va) hlen hfuel]
    rfl
  · rw [putPointer_eq k hidx]
  · rw [hpercent]
    rfl
  · rfl

/-- A directive writes its text.  Behind a directive that is broken off comes what lies behind
the terminator. -/
theorem directive_run {fuel : Nat} (hn : n < 2 ^ 64) (hmem : ∀ b, k.Spares n b → s.world.mem b = m b)
    (hrest : Rest (k.Spares n) m e a cs) (hread : (takeSpec cs).1.Reads k n m str va)
    (hlen : s.idx + ((takeSpec cs).1.expand str va).1.length ≤ n)
    (hfuel : cs.length + (str ((takeSpec cs).1.eval va).2.next.1).length < fuel) :
    ∃ a', directive k fuel ⟨s, a, va⟩ =
        some ⟨s.puts k ((takeSpec cs).1.expand str va).1, a', ((takeSpec cs).1.expand str va).2⟩ ∧
      (if (takeSpec cs).1.specifier = 0 then a' = (e + 1) % 2 ^ 64
        else Rest (k.Spares n) m e a' (takeSpec cs).2) := by
  have hhere := hrest.congr hmem
  obtain ⟨a₁, hflags, hrest₁⟩ := flagLoop_run hhere .none (Nat.lt_of_le_of_lt (Nat.le_add_right ..) hfuel)
  have hlen₁ : (cs.dropWhile isFlag).length ≤ cs.length := (List.dropWhile_suffix _).length_le
  have hfuel₁ : (cs.dropWhile isFlag).length < fuel := by omega
  obtain ⟨a₂, hwidth, hrest₂⟩ := scanWidth_run hrest₁ (flagsOf (cs.takeWhile isFlag)) va hfuel₁
  have hlen₂ := congrArg List.length (takeField_text (cs.dropWhile isFlag))
  rw [List.length_append] at hlen₂
  have hfuel₂ : (takeField (cs.dropWhile isFlag)).2.length < fuel := by omega
  obtain ⟨a₃, hprecision, hrest₃⟩ := scanPrecision_run hrest₂
    ((takeField (cs.dropWhile isFlag)).1.asWidth (flagsOf (cs.takeWhile isFlag)) va).1
    ((takeField (cs.dropWhile isFlag)).1.asWidth (flagsOf (cs.takeWhile isFlag)) va).2 hfuel₂
    (asWidth_precision _ (flagsOf_precision _) va)
  obtain ⟨a₄, hlength, hrest₄⟩ := scanLength_run hrest₃ _ _
  have hspec : s.world.mem a₄ = (takeSpec cs).1.specifier := hrest₄.head
  have hstring : (str ((takeSpec cs).1.eval va).2.next.1).length < fuel := by omega
  have hconvert := convert_run hn hmem hread hlen hstring
  refine ⟨(a₄ + 1) % 2 ^ 64, ?_, ?_⟩
  · rw [directive]
    simp only
    rw [hflags, Option.bind_some]
    simp only
    rw [foldl_setFlag_none, hwidth, Option.bind_some, hprecision, Option.bind_some, hlength]
    simp only
    rw [hspec]
    exact (congrArg _ hconvert).trans rfl
  · have htail : (takeSpec cs).2 = (takeLength (takePrecision (takeField (cs.dropWhile isFlag)).2).2).2.tail := rfl
    have hhead : (takeSpec cs).1.specifier =
      (takeLength (takePrecision (takeField (cs.dropWhile isFlag)).2).2).2.headD 0 := rfl
    rw [htail, hhead]
    cases hlast : (takeLength (takePrecision (takeField (cs.dropWhile isFlag)).2).2).2 with
    | nil =>
        rw [hlast] at hrest₄
        rw [List.headD_nil, if_pos rfl, hrest₄.nil]
    | cons c rest =>
        rw [hlast] at hrest₄
        rw [List.headD_cons, if_neg hrest₄.str.2.1]
        exact hrest₄.next.congr fun b hb => (hmem b hb).symm

/-! ## The whole format -/

/-- Where the format is left: behind its terminator if its last directive is broken off. -/
def behind (items : List Item) (e : Nat) : Nat := if Complete items then e else (e + 1) % 2 ^ 64

theorem behind_lit (c : BitVec 8) (items : List Item) (e : Nat) : behind (.lit c :: items) e = behind items e := by
  simp only [behind, complete_lit]

theorem behind_spec {sp : Spec} (items : List Item) (e : Nat) :
    behind (.spec sp :: items) e = if sp.specifier = 0 then (e + 1) % 2 ^ 64 else behind items e := by
  simp only [behind, complete_spec]
  by_cases hspec : sp.specifier = 0
  · rw [if_neg (fun h => h.1 hspec), if_pos hspec]
  · simp only [hspec, ne_eq, not_false_eq_true, true_and, if_false]

/-- **The text of the format is written, and nothing else.** -/
theorem formatLoop_run (hn : n < 2 ^ 64) :
    ∀ (cs : List (BitVec 8)) (_ : ∀ c ∈ cs, c ≠ 0) (s : Output) (a : Nat) (va : VaList),
      (∀ b, k.Spares n b → s.world.mem b = m b) → Rest (k.Spares n) m e a cs → Reads k n m str (parse cs) va →
      s.idx + (expand str (parse cs) va).1.length ≤ n →
      ∃ N j, ∀ fuel ≥ N, formatLoop k (fuel + j) ⟨s, a, va⟩ =
        formatLoop k fuel ⟨s.puts k (expand str (parse cs) va).1, behind (parse cs) e,
          (expand str (parse cs) va).2⟩ := by
  intro cs hcs
  refine format_induction ?nil (fun c cs hc ih => ?lit) (fun cs hcs ih => ?spec) cs hcs
  case nil =>
    intro s a va _ hrest _ _
    refine ⟨0, 0, fun fuel _ => ?_⟩
    rw [hrest.nil]
    rfl
  case lit =>
    intro s a va hmem hrest hreads hlen
    rw [parse_lit hc] at hreads hlen ⊢
    rw [expand, List.length_cons] at hlen
    have hidx : (s.put k c).idx = s.idx + 1 := Nat.mod_eq_of_lt (by omega)
    obtain ⟨N, j, hrun⟩ := ih (s.put k c) _ va
      (fun b hb => (put_mem hb (by omega) c).trans (hmem b hb)) hrest.next hreads (by rw [hidx]; omega)
    refine ⟨N, j + 1, fun fuel hfuel => ?_⟩
    have hhead : s.world.mem a = c := (hrest.congr hmem).head
    rw [behind_lit, ← Nat.add_assoc, formatLoop]
    simp only
    rw [hhead, if_neg (hrest.str.2.1), if_pos hc]
    exact hrun fuel hfuel
  case spec =>
    intro s a va hmem hrest hreads hlen
    rw [parse_spec hcs] at hreads hlen ⊢
    rw [expand, List.length_append] at hlen
    obtain ⟨hread, hreads⟩ := hreads
    have hstep : ∀ fuel, cs.length + (str ((takeSpec cs).1.eval va).2.next.1).length < fuel →
        ∃ a', formatLoop k (fuel + 1) ⟨s, a, va⟩ = formatLoop k fuel
            ⟨s.puts k ((takeSpec cs).1.expand str va).1, a', ((takeSpec cs).1.expand str va).2⟩ ∧
          (if (takeSpec cs).1.specifier = 0 then a' = (e + 1) % 2 ^ 64
            else Rest (k.Spares n) m e a' (takeSpec cs).2) := by
      intro fuel hfuel
      obtain ⟨a', hrun, hnext⟩ := directive_run hn hmem hrest.next hread (by omega) hfuel
      have hhead : s.world.mem a = 0x25 := (hrest.congr hmem).head
      refine ⟨a', ?_, hnext⟩
      rw [formatLoop]
      simp only
      rw [hhead, if_neg (by decide), if_neg (fun h => h rfl), hrun]
      rfl
    rw [behind_spec, expand, puts_append]
    rcases takeSpec_text cs hcs with ⟨hspec, _⟩ | ⟨hspec, _, hnil⟩
    · simp only [if_neg hspec] at hstep ⊢
      obtain ⟨a', _, hnext⟩ := hstep _ (Nat.lt_succ_self _)
      have hmem' : ∀ b, k.Spares n b → (s.puts k ((takeSpec cs).1.expand str va).1).world.mem b = m b :=
        fun b hb => (puts_mem hb (by omega) hn).trans (hmem b hb)
      have hidx : (s.puts k ((takeSpec cs).1.expand str va).1).idx =
          s.idx + ((takeSpec cs).1.expand str va).1.length := by
        rw [idx_puts (by omega), Nat.mod_eq_of_lt (by omega)]
      obtain ⟨N, j, hrun⟩ := ih _ a' _ hmem' hnext hreads (by rw [hidx]; omega)
      refine ⟨max N (cs.length + (str ((takeSpec cs).1.eval va).2.next.1).length + 1), j + 1, fun fuel hfuel => ?_⟩
      obtain ⟨a'', hfirst, hnext'⟩ := hstep (fuel + j) (by omega)
      rw [← Nat.add_assoc, hfirst, hnext'.unique hnext]
      exact hrun fuel (by omega)
    · simp only [if_pos hspec] at hstep ⊢
      refine ⟨cs.length + (str ((takeSpec cs).1.eval va).2.next.1).length + 1, 1, fun fuel hfuel => ?_⟩
      obtain ⟨a', hrun, hend⟩ := hstep fuel (by omega)
      rw [hrun, hend, hnil]
      rfl

/-- A complete format ends at its terminator. -/
theorem formatLoop_complete (hn : n < 2 ^ 64) (hmem : ∀ b, k.Spares n b → s.world.mem b = m b)
    (hrest : Rest (k.Spares n) m e a cs) (hreads : Reads k n m str (parse cs) va)
    (hlen : s.idx + (expand str (parse cs) va).1.length ≤ n) (hcomplete : Complete (parse cs)) :
    ∃ N, ∀ fuel ≥ N, formatLoop k fuel ⟨s, a, va⟩ = some (s.puts k (expand str (parse cs) va).1) := by
  obtain ⟨N, j, hrun⟩ := formatLoop_run hn cs hrest.str.char_ne_zero s a va hmem hrest hreads hlen
  refine ⟨N + 1 + j, fun fuel hfuel => ?_⟩
  obtain ⟨fuel, rfl⟩ : ∃ fuel', fuel = fuel' + 1 + j := ⟨fuel - j - 1, by omega⟩
  have hend : k.Spares n e := by
    have hinside := hrest.inside cs.length (Nat.le_refl _)
    rwa [hrest.finish] at hinside
  have hnul : (s.puts k (expand str (parse cs) va).1).world.mem e = 0 := by
    rw [puts_mem hend hlen hn, hmem e hend, ← hrest.finish]
    exact hrest.str.nul hrest.lt
  rw [hrun (fuel + 1) (by omega), behind, if_pos hcomplete, formatLoop]
  simp only
  rw [if_pos hnul]

/-- What can be read depends on the arguments that are left only. -/
theorem Reads.congr {items : List Item} {va' : VaList} {n' : Nat} (hk : ∀ a, k.Spares n' a) (h : va.Same va') :
    Reads k n m str items va → Reads k n' m str items va' := by
  induction items generalizing va va' with
  | nil => exact fun _ => trivial
  | cons item items ih =>
      cases item with
      | lit c => exact ih h
      | spec sp =>
          obtain ⟨hdir, hva⟩ := h.eval sp
          obtain ⟨hword, _⟩ := hva.next
          refine fun hreads => ⟨fun hstr => ?_, ih (h.expandSpec str sp).2 hreads.2⟩
          have hread := hreads.1 hstr
          rw [hdir, hword] at hread
          exact ⟨fun i hi => ⟨(hread.chars i hi).1, (hread.chars i hi).2.1, hk _⟩,
            hread.stop.imp (fun hnul => ⟨hnul.1, hk _⟩) id⟩

end

end Kprintf
end GuideOS
