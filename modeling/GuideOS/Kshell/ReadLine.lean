import GuideOS.Lib.Editing
import Mathlib.Data.Seq.Basic
import Mathlib.Logic.Function.Basic

/-!
# The line editor of the shell

`ksh_read_line` of `kshell.c`.  It takes what `console_getc` returns one by one, up to
the first carriage return or line feed, and may wait for a character forever.

The state records the calls of `putchar` and the indices at which the buffer was
written.
-/

namespace GuideOS
namespace Kshell

open Lib

/-- `CMD_MAX_LEN` -/
def cmdMaxLen : Nat := 1024

/-- `BACKSPACE` -/
def backspace : Int := 0x100

structure State where
  inputLen : Nat
  buf : Nat → BitVec 8
  putchars : List Int
  stores : List Nat

inductive Status
  /-- in `console_getc` -/
  | waiting
  | returned
  /-- `panic("getc")` -/
  | panicked
deriving DecidableEq

def State.start (buf : Nat → BitVec 8) : State := ⟨0, buf, [], []⟩

def State.store (s : State) (i : Nat) (v : BitVec 8) : State :=
  { s with buf := Function.update s.buf i v, stores := s.stores ++ [i] }

def State.putchar (s : State) (c : Int) : State := { s with putchars := s.putchars ++ [c] }

def kshReadLine (s : State) : List Int → Status × State
  | [] => (.waiting, s)
  | c :: cs =>
      if c < 0 then (.panicked, s)
      else if c = backspace ∧ s.inputLen > 0 then
        kshReadLine ({ s with inputLen := s.inputLen - 1 }.putchar backspace) cs
      else if c = 0x0D ∨ c = 0x0A then
        (.returned, (s.putchar 0x0A).store s.inputLen 0)
      else if s.inputLen < cmdMaxLen ∧ c > 0 ∧ c < 0xFF then
        kshReadLine ({ s.store s.inputLen (BitVec.ofInt 8 c) with
          inputLen := s.inputLen + 1 }.putchar c) cs
      else kshReadLine s cs

/-! ## What is typed -/

/-- `buf[0..input_len)` -/
def State.held (s : State) : List (BitVec 8) := (List.range s.inputLen).map s.buf

/-- What the user sees of the line. -/
def echoed (out : List Int) : List (BitVec 8) :=
  out.foldl (fun l c => if c = backspace then l.dropLast else l ++ [BitVec.ofInt 8 c]) []

def LineEnd (c : Int) : Prop := c = 0x0D ∨ c = 0x0A

instance (c : Int) : Decidable (LineEnd c) := inferInstanceAs (Decidable (_ ∨ _))

/-- Characters up to the end of the line. -/
def Typed (cs : List Int) : Prop := ∀ c ∈ cs, 0 ≤ c ∧ ¬ LineEnd c

instance (cs : List Int) : Decidable (Typed cs) := inferInstanceAs (Decidable (∀ c ∈ cs, _))

/-- What a character does to the line. -/
def toEdit (c : Int) : Edit (BitVec 8) :=
  if c = backspace then .erase else if 0 < c ∧ c < 0xFF then .type (BitVec.ofInt 8 c) else .skip

/-- The line that is typed by `cs`. -/
def typedLine (cs : List Int) : List (BitVec 8) := edited cmdMaxLen [] (cs.map toEdit)

/-- The state while the line is typed: buffer and echo hold `l`. -/
structure Holds (s : State) (l : List (BitVec 8)) : Prop where
  held : s.held = l
  echoed : echoed s.putchars = l
  stores : ∀ i ∈ s.stores, i < cmdMaxLen

section

variable {s : State} {l : List (BitVec 8)} {c : Int} {cs : List Int}

theorem length_held (s : State) : s.held.length = s.inputLen := by
  rw [State.held, List.length_map, List.length_range]

theorem Holds.inputLen (h : Holds s l) : s.inputLen = l.length := by
  rw [← h.held, length_held]

theorem held_pred (s : State) :
    ({ s with inputLen := s.inputLen - 1 } : State).held = s.held.dropLast := by
  cases hlen : s.inputLen with
  | zero => simp [State.held, hlen]
  | succ n =>
      rw [State.held, State.held, hlen, List.range_succ, List.map_append, List.map_singleton,
        List.dropLast_concat]
      rfl

theorem map_range_update (f : Nat → BitVec 8) (n : Nat) (v : BitVec 8) :
    (List.range n).map (Function.update f n v) = (List.range n).map f := by
  refine List.map_congr_left fun i hi => ?_
  exact Function.update_of_ne (Nat.ne_of_lt (List.mem_range.mp hi)) ..

theorem held_succ (s : State) (v : BitVec 8) :
    ({ s.store s.inputLen v with inputLen := s.inputLen + 1 } : State).held = s.held ++ [v] := by
  rw [State.held, List.range_succ, List.map_append, List.map_singleton]
  simp only [State.store]
  rw [map_range_update, Function.update_self]
  rfl

theorem echoed_concat (out : List Int) (c : Int) :
    echoed (out ++ [c]) =
      if c = backspace then (echoed out).dropLast else echoed out ++ [BitVec.ofInt 8 c] := by
  rw [echoed, List.foldl_append]
  rfl

/-- The step of the loop. -/
theorem Holds.step (h : Holds s l) (hc : 0 ≤ c) (hend : ¬ LineEnd c) (cs : List Int) :
    ∃ s', kshReadLine s (c :: cs) = kshReadLine s' cs ∧
      Holds s' ((toEdit c).apply cmdMaxLen l) := by
  have hlen := h.inputLen
  have hend' : ¬ (c = 0x0D ∨ c = 0x0A) := hend
  rw [kshReadLine, if_neg (by omega)]
  by_cases hback : c = backspace
  · rw [toEdit, if_pos hback]
    by_cases hpos : s.inputLen > 0
    · rw [if_pos ⟨hback, hpos⟩]
      refine ⟨_, rfl, ?_, ?_, h.stores⟩
      · rw [Edit.apply, ← h.held]
        exact held_pred s
      · rw [State.putchar, echoed_concat, if_pos rfl, Edit.apply, h.echoed]
    · have hchar : ¬ (s.inputLen < cmdMaxLen ∧ c > 0 ∧ c < 0xFF) := by
        rw [hback, backspace]
        omega
      rw [if_neg (fun hboth => hpos hboth.2), if_neg hend', if_neg hchar]
      have hnil : l = [] := List.eq_nil_of_length_eq_zero (by omega)
      subst hnil
      exact ⟨s, rfl, h⟩
  · rw [if_neg (fun hboth => hback hboth.1), if_neg hend', toEdit, if_neg hback]
    by_cases hchar : 0 < c ∧ c < 0xFF
    · rw [if_pos hchar, Edit.apply]
      by_cases hroom : s.inputLen < cmdMaxLen
      · rw [if_pos ⟨hroom, hchar⟩, if_pos (by omega)]
        refine ⟨_, rfl, ?_, ?_, ?_⟩
        · rw [← h.held]
          exact held_succ s _
        · rw [State.putchar, echoed_concat, if_neg hback]
          exact congrArg (· ++ _) h.echoed
        · intro i hi
          rcases List.mem_append.mp hi with hi | hi
          · exact h.stores i hi
          · rw [List.mem_singleton.mp hi]
            exact hroom
      · rw [if_neg (fun hall => hroom hall.1), if_neg (by omega)]
        exact ⟨s, rfl, h⟩
    · rw [if_neg (fun hall => hchar hall.2), if_neg hchar]
      exact ⟨s, rfl, h⟩

theorem Holds.run (h : Holds s l) (hcs : Typed cs) (rest : List Int) :
    ∃ s', kshReadLine s (cs ++ rest) = kshReadLine s' rest ∧
      Holds s' (edited cmdMaxLen l (cs.map toEdit)) := by
  induction cs generalizing s l with
  | nil => exact ⟨s, rfl, h⟩
  | cons c cs ih =>
      obtain ⟨⟨hc, hend⟩, hcs⟩ := List.forall_mem_cons.mp hcs
      obtain ⟨s₁, hrun, hstep⟩ := h.step hc hend (cs ++ rest)
      obtain ⟨s', hrest, hholds⟩ := ih hstep hcs
      exact ⟨s', hrun.trans hrest, hholds⟩

theorem holds_start (buf : Nat → BitVec 8) : Holds (State.start buf) [] :=
  ⟨rfl, rfl, fun _ hi => absurd hi List.not_mem_nil⟩

theorem kshReadLine_lineEnd (s : State) (hc : LineEnd c) (rest : List Int) :
    kshReadLine s (c :: rest) = (.returned, (s.putchar 0x0A).store s.inputLen 0) := by
  have hpos : ¬ c < 0 := by
    rcases hc with rfl | rfl <;> decide
  have hback : ¬ (c = backspace ∧ s.inputLen > 0) := by
    rintro ⟨hback, _⟩
    rw [hback] at hc
    exact absurd hc (by decide)
  rw [kshReadLine, if_neg hpos, if_neg hback]
  exact if_pos hc

/-- The line is stored up to the terminator. -/
theorem Holds.held_returned (h : Holds s l) : ((s.putchar 0x0A).store s.inputLen 0).held = l := by
  rw [← h.held]
  exact map_range_update s.buf s.inputLen 0

/-- The characters of a call are those of a line, and what ends it if there is more. -/
theorem exists_typed_append (cs : List Int) :
    ∃ ds rest, cs = ds ++ rest ∧ Typed ds ∧ ∀ c ∈ rest.head?, c < 0 ∨ LineEnd c := by
  induction cs with
  | nil => exact ⟨[], [], rfl, fun _ hc => absurd hc List.not_mem_nil, fun _ hc => by cases hc⟩
  | cons c cs ih =>
      by_cases hc : c < 0 ∨ LineEnd c
      · refine ⟨[], c :: cs, rfl, fun _ hd => absurd hd List.not_mem_nil, fun d hd => ?_⟩
        rw [List.head?_cons, Option.mem_some_iff] at hd
        exact hd ▸ hc
      · obtain ⟨ds, rest, rfl, hds, hrest⟩ := ih
        rw [not_or] at hc
        exact ⟨c :: ds, rest, rfl, List.forall_mem_cons.mpr ⟨⟨by omega, hc.2⟩, hds⟩, hrest⟩

theorem Typed.append_unique {ds ds' rest : List Int} {c c' : Int} (hds : Typed ds) (hds' : Typed ds')
    (hc : c < 0 ∨ LineEnd c) (hc' : LineEnd c') (h : ds' ++ [c'] <+: ds ++ c :: rest) :
    ds' = ds ∧ c' = c := by
  induction ds generalizing ds' with
  | nil =>
      cases ds' with
      | nil => exact ⟨rfl, (List.cons_prefix_cons.mp h).1⟩
      | cons d ds' =>
          obtain ⟨rfl, _⟩ := List.cons_prefix_cons.mp h
          obtain ⟨hd, hend⟩ := hds' d List.mem_cons_self
          exact absurd hc (not_or.mpr ⟨by omega, hend⟩)
  | cons a ds ih =>
      cases ds' with
      | nil =>
          obtain ⟨rfl, _⟩ := List.cons_prefix_cons.mp h
          exact absurd hc' (hds c' List.mem_cons_self).2
      | cons d ds' =>
          obtain ⟨rfl, hrest⟩ := List.cons_prefix_cons.mp h
          obtain ⟨rfl, rfl⟩ := ih (List.forall_mem_cons.mp hds).2 (List.forall_mem_cons.mp hds').2 hrest
          exact ⟨rfl, rfl⟩

/-- All stores of a call are in the buffer unless a full line is ended. -/
theorem Holds.stores_lt_iff (h : Holds s []) (cs : List Int) :
    (∀ i ∈ (kshReadLine s cs).2.stores, i < cmdMaxLen) ↔
      ¬ ∃ ds c, ds ++ [c] <+: cs ∧ Typed ds ∧ LineEnd c ∧ Fills cmdMaxLen (ds.map toEdit) := by
  obtain ⟨ds, rest, rfl, hds, hrest⟩ := exists_typed_append cs
  obtain ⟨s', hrun, hholds⟩ := h.run hds rest
  rw [hrun]
  cases rest with
  | nil =>
      refine iff_of_true hholds.stores ?_
      rintro ⟨ds', c, hpre, _, hc, _⟩
      rw [List.append_nil] at hpre
      have hmem : c ∈ ds := hpre.subset (List.mem_append_right ds' List.mem_cons_self)
      exact (hds c hmem).2 hc
  | cons c rest =>
      have hstop := hrest c rfl
      by_cases hneg : c < 0
      · rw [kshReadLine, if_pos hneg]
        refine iff_of_true hholds.stores ?_
        rintro ⟨ds', c', hpre, hds', hc', _⟩
        obtain ⟨rfl, rfl⟩ := hds.append_unique hds' hstop hc' hpre
        rcases hc' with rfl | rfl <;> exact absurd hneg (by decide)
      · have hc := hstop.resolve_left hneg
        have hlen : s'.inputLen = (typedLine ds).length := hholds.inputLen
        have hle : (typedLine ds).length ≤ cmdMaxLen := length_edited_le (Nat.zero_le _)
        rw [kshReadLine_lineEnd s' hc]
        constructor
        · rintro hall ⟨ds', c', hpre, hds', hc', hfills⟩
          obtain ⟨rfl, rfl⟩ := hds.append_unique hds' hstop hc' hpre
          have hlast := hall s'.inputLen (List.mem_append_right _ List.mem_cons_self)
          have hfull : (typedLine ds').length = cmdMaxLen := length_edited_eq_iff.mpr hfills
          omega
        · intro hno i hi
          rcases List.mem_append.mp hi with hi | hi
          · exact hholds.stores i hi
          · rw [List.mem_singleton.mp hi]
            have hnot : (typedLine ds).length ≠ cmdMaxLen := fun hfull =>
              hno ⟨ds, c, List.prefix_append_right_inj ds |>.mpr (List.cons_prefix_cons.mpr
                ⟨rfl, List.nil_prefix⟩), hds, hc, length_edited_eq_iff.mp hfull⟩
            show s'.inputLen < cmdMaxLen
            omega

end

/-- A full line is ended. -/
def EndsFull (values : Stream'.Seq Int) : Prop :=
  ∃ n ds c, ds ++ [c] <+: values.take n ∧ Typed ds ∧ LineEnd c ∧ Fills cmdMaxLen (ds.map toEdit)

/-- `ksh_read_line` stays in its buffer exactly if no full line is ended.  The sequence of
characters may be finite or infinite; it has been taken up to the first `n`. -/
theorem kshReadLine_inBounds_iff (buf : Nat → BitVec 8) (values : Stream'.Seq Int) :
    (∀ n, ∀ i ∈ (kshReadLine (State.start buf) (values.take n)).2.stores, i < cmdMaxLen) ↔
      ¬ EndsFull values := by
  constructor
  · rintro hall ⟨n, ds, c, hline⟩
    exact ((holds_start buf).stores_lt_iff _).mp (hall n) ⟨ds, c, hline⟩
  · intro hno n
    refine ((holds_start buf).stores_lt_iff _).mpr ?_
    rintro ⟨ds, c, hline⟩
    exact hno ⟨n, ds, c, hline⟩

theorem take_ofList (l : List Int) : (Stream'.Seq.ofList l).take l.length = l := by
  induction l with
  | nil => exact Stream'.Seq.take_zero
  | cons a l ih =>
      rw [List.length_cons, Stream'.Seq.ofList_cons, Stream'.Seq.take_succ_cons, ih]

/-- A line of `n` characters. -/
theorem length_typedLine_replicate {n : Nat} (hn : n ≤ cmdMaxLen) :
    (typedLine (List.replicate n 0x61)).length = n := by
  induction n with
  | zero => rfl
  | succ n ih =>
      have hlen := ih (by omega)
      rw [typedLine] at hlen ⊢
      rw [List.replicate_succ', List.map_append, edited_append, List.map_singleton, edited_cons,
        edited_nil, toEdit, if_neg (by decide), if_pos (by decide), Edit.apply, if_pos (by omega),
        List.length_append, hlen, List.length_singleton]

/-- A line that is exactly as long as the buffer: the terminator is stored behind it. -/
theorem kshReadLine_overruns :
    cmdMaxLen ∈ (kshReadLine (State.start fun _ => 0)
      ((Stream'.Seq.ofList (List.replicate 1024 0x61 ++ [0x0D])).take 1025)).2.stores ∧
    ¬ ∀ n, ∀ i ∈ (kshReadLine (State.start fun _ => 0)
      ((Stream'.Seq.ofList (List.replicate 1024 0x61 ++ [0x0D])).take n)).2.stores, i < cmdMaxLen := by
  have htake := take_ofList (List.replicate 1024 0x61 ++ [0x0D])
  rw [List.length_append, List.length_replicate, List.length_singleton] at htake
  have htyped : Typed (List.replicate 1024 0x61) := by
    intro c hc
    rw [List.eq_of_mem_replicate hc]
    decide
  obtain ⟨s, hrun, hholds⟩ := (holds_start fun _ => 0).run htyped [0x0D]
  have hlen : s.inputLen = cmdMaxLen :=
    hholds.inputLen.trans (length_typedLine_replicate (Nat.le_refl _))
  have hmem : cmdMaxLen ∈ (kshReadLine (State.start fun _ => 0)
      ((Stream'.Seq.ofList (List.replicate 1024 0x61 ++ [0x0D])).take 1025)).2.stores := by
    rw [htake, hrun, kshReadLine_lineEnd s (Or.inl rfl), ← hlen]
    exact List.mem_append_right _ List.mem_cons_self
  exact ⟨hmem, fun hall => absurd (hall 1025 cmdMaxLen hmem) (Nat.lt_irrefl _)⟩

/-- The line that is typed is in the buffer when its terminator is stored, and what was
echoed is at each moment what is in the buffer. -/
theorem kshReadLine_edits (buf : Nat → BitVec 8) {cs : List Int} {c : Int} (hcs : Typed cs)
    (hc : LineEnd c) :
    (∃ s, kshReadLine (State.start buf) (cs ++ [c]) = (.returned, s) ∧ s.held = typedLine cs ∧
      s.stores.getLast? = some s.inputLen ∧ s.buf s.inputLen = 0) ∧
    ∀ ds, ds <+: cs → ∃ s, kshReadLine (State.start buf) ds = (.waiting, s) ∧
      s.held = typedLine ds ∧ echoed s.putchars = s.held := by
  constructor
  · obtain ⟨s', hrun, hholds⟩ := (holds_start buf).run hcs [c]
    refine ⟨_, hrun.trans (kshReadLine_lineEnd s' hc []), hholds.held_returned, ?_, ?_⟩
    · exact List.getLast?_concat ..
    · exact Function.update_self ..
  · intro ds hpre
    have hds : Typed ds := fun d hd => hcs d (hpre.subset hd)
    obtain ⟨s', hrun, hholds⟩ := (holds_start buf).run hds []
    rw [List.append_nil] at hrun
    exact ⟨s', hrun, hholds.held, hholds.echoed.trans hholds.held.symm⟩

/-- A character is typed and erased, the empty line is erased, and a byte is ignored. -/
theorem kshReadLine_edits_erased :
    ∃ s, kshReadLine (State.start fun _ => 0) [0x61, 0x100, 0x100, 0x62, 0xFF, 0x0A] = (.returned, s) ∧
      s.held = [0x62] := by
  have htyped : Typed [0x61, 0x100, 0x100, 0x62, 0xFF] := by decide
  obtain ⟨s, hrun, hheld, _⟩ := (kshReadLine_edits (fun _ => 0) htyped (Or.inr rfl)).1
  exact ⟨s, hrun, hheld.trans (by decide)⟩

end Kshell
end GuideOS
