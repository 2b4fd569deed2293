import GuideOS.Mem.Layout
import GuideOS.Util.Str

/-!
# The text screen

`cga_putchar` of `arch/x86/console.c`, over the bytes of the screen memory and the
cursor registers.  It shows a window of 24 rows of `Screen`, a terminal of unbounded
height whose top visible row follows the cursor.

The state records which addresses were written and the lengths given to `memset`, which
are an `int` until they are multiplied by the size of a cell.
-/

namespace GuideOS
namespace Cga

open Lib Str

/-- `BACKSPACE` -/
def backspace : Int := 0x100

/-- `crt` -/
def crt : Nat := p2kv 0xb8000

structure State where
  mem : Bytes
  /-- register 14 behind `CRTPORT` -/
  cursorHigh : BitVec 8
  /-- register 15 behind `CRTPORT` -/
  cursorLow : BitVec 8
  written : Set Nat
  cleared : List Int

/-- Before the first call. -/
def State.start (mem : Bytes) (cursorHigh cursorLow : BitVec 8) : State :=
  ⟨mem, cursorHigh, cursorLow, ∅, []⟩

/-- The cursor as it is read. -/
def State.pos (s : State) : Int := (s.cursorHigh.toNat <<< 8 ||| s.cursorLow.toNat : Nat)

/-- `&crt[pos]` -/
def cellAddr (pos : Int) : Nat := ((crt + 2 * pos) % 2 ^ 64).toNat

/-- `crt[pos] = v` -/
def State.putCell (s : State) (pos : Int) (v : Nat) : State :=
  { s with
    mem := storeLE s.mem (cellAddr pos) 2 v
    written := s.written ∪ span (cellAddr pos) 2 }

def State.advance (s : State) (c pos : Int) : State × Int :=
  if c = 0x0A then (s, pos + (80 - pos.tmod 80))
  else if c = backspace then (s, if pos > 0 then pos - 1 else pos)
  else (s.putCell pos ((c % 256).toNat ||| 0x0700), pos + 1)

def State.scroll (s : State) (pos : Int) : State × Int :=
  if pos.tdiv 80 ≥ 24 then
    let mem := memcpy s.mem crt (cellAddr 80) (2 * 23 * 80)
    let pos := pos - 80
    let n := (2 * (24 * 80 - pos) % 2 ^ 64).toNat
    ({ s with
        mem := memset mem (cellAddr pos) 0 n
        written := s.written ∪ span crt (2 * 23 * 80) ∪ span (cellAddr pos) n
        cleared := s.cleared ++ [24 * 80 - pos] }, pos)
  else (s, pos)

/-- The cursor is written to its registers. -/
def State.setCursor (s : State) (pos : Int) : State :=
  { s with cursorHigh := BitVec.ofInt 8 (pos >>> (8 : Nat)), cursorLow := BitVec.ofInt 8 pos }

def cgaPutchar (s : State) (c : Int) : State :=
  let r := s.advance c s.pos
  let r := r.1.scroll r.2
  (r.1.setCursor r.2).putCell r.2 (0x20 ||| 0x0700)

/-! ## The terminal -/

/-- Rows of 80 cells, the cursor, and the top visible row. -/
structure Screen where
  cell : Nat → Nat
  cursor : Nat
  top : Nat

/-- The cell under the cursor is written. -/
def Screen.put (v : Screen) (x : Nat) : Screen := { v with cell := Function.update v.cell v.cursor x }

def Screen.move (v : Screen) (c : Int) : Screen :=
  if c = 0x0A then { v with cursor := (v.cursor / 80 + 1) * 80 }
  else if c = backspace then { v with cursor := if 80 * v.top < v.cursor then v.cursor - 1 else v.cursor }
  else { v.put ((c % 256).toNat ||| 0x0700) with cursor := v.cursor + 1 }

/-- The top visible row follows the cursor. -/
def Screen.follow (v : Screen) : Screen :=
  if v.cursor / 80 = v.top + 24 then { v with top := v.top + 1 } else v

/-- The cell under the cursor is blanked after each move. -/
def Screen.putchar (v : Screen) (c : Int) : Screen := ((v.move c).put (0x20 ||| 0x0700)).follow

/-- A cell of the screen memory. -/
def cellAt (m : Bytes) (i : Nat) : Nat := loadLE m (crt + 2 * i) 2

/-- The terminal that `cga_putchar` finds, with nothing below. -/
def Screen.start (s : State) : Screen where
  cell i := if i < 24 * 80 then cellAt s.mem i else 0
  cursor := s.pos.toNat
  top := 0

/-- With the cursor at `pos`, the screen shows `v`, and no memory but its 24 rows was
written since `m`. -/
structure Shows (m : Bytes) (s : State) (pos : Nat) (v : Screen) : Prop where
  cursor : v.cursor = 80 * v.top + pos
  cells : ∀ i < 24 * 80, cellAt s.mem i = v.cell (80 * v.top + i)
  unseen : ∀ j, 80 * v.top + 24 * 80 ≤ j → v.cell j = 0
  written : ∀ a ∈ s.written, crt ≤ a ∧ a < crt + 2 * (24 * 80)
  outside : ∀ a, a < crt ∨ crt + 2 * (24 * 80) ≤ a → s.mem a = m a
  cleared : ∀ n ∈ s.cleared, 0 ≤ n

section

variable {m : Bytes} {s : State} {pos : Nat} {v : Screen} {c : Int}

theorem crt_eq : crt = 0xFFFF8000000B8000 := by decide

theorem cellAddr_eq {i : Nat} (hi : i ≤ 24 * 80) : cellAddr i = crt + 2 * i := by
  rw [cellAddr, crt_eq]
  omega

theorem cellAt_eq (m : Bytes) (i : Nat) :
    cellAt m i = (m (crt + 2 * i)).toNat + 256 * (m (crt + 2 * i + 1)).toNat := by
  rw [cellAt, loadLE, loadLE, loadLE, Nat.mul_zero, Nat.add_zero]

theorem cellAt_putCell (s : State) (hpos : pos < 24 * 80) {x : Nat} (hx : x < 256 ^ 2) (i : Nat) :
    cellAt (s.putCell pos x).mem i = if i = pos then x else cellAt s.mem i := by
  rw [State.putCell, cellAddr_eq (by omega), cellAt]
  split
  · rename_i hi
    subst hi
    have hload : loadLE (storeLE s.mem (crt + 2 * i) 2 x) (crt + 2 * i + 0) 2 = x / 256 ^ 0 % 256 ^ 2 :=
      loadLE_storeLE (by omega)
    rwa [Nat.add_zero, Nat.pow_zero, Nat.div_one, Nat.mod_eq_of_lt hx] at hload
  · exact loadLE_congr fun b hb hb' => storeLE_outside (by omega)

theorem Shows.putCell (h : Shows m s pos v) (hpos : pos < 24 * 80) {x : Nat} (hx : x < 256 ^ 2) :
    Shows m (s.putCell pos x) pos (v.put x) := by
  have hcursor := h.cursor
  have hcrt := crt_eq
  refine ⟨h.cursor, fun i hi => ?_, fun j hj => ?_, fun a ha => ?_, fun a ha => ?_, h.cleared⟩
  · rw [cellAt_putCell s hpos hx]
    show _ = Function.update v.cell v.cursor x (80 * v.top + i)
    split
    · rename_i hip
      rw [hip, ← hcursor, Function.update_self]
    · rw [Function.update_of_ne (by omega)]
      exact h.cells i hi
  · have hj' : 80 * v.top + 24 * 80 ≤ j := hj
    show Function.update v.cell v.cursor x j = 0
    rw [Function.update_of_ne (by omega)]
    exact h.unseen j hj'
  · rw [State.putCell, cellAddr_eq (by omega)] at ha
    rcases ha with ha | ha
    · exact h.written a ha
    · have := (mem_span_iff (by omega)).mp ha
      omega
  · rw [State.putCell, cellAddr_eq (by omega)]
    exact (storeLE_outside (by omega)).trans (h.outside a ha)

theorem char_lt (c : Int) : (c % 256).toNat ||| 0x0700 < 256 ^ 2 :=
  Nat.or_lt_two_pow (n := 16) (by omega) (by decide)

/-- The first part of a call. -/
theorem Shows.advance (h : Shows m s pos v) (hpos : pos < 24 * 80) (c : Int) :
    ∃ s', ∃ pos' : Nat, s.advance c pos = (s', (pos' : Int)) ∧ pos' ≤ 24 * 80 ∧
      Shows m s' pos' (v.move c) := by
  have hcursor := h.cursor
  rw [State.advance, Screen.move]
  split
  · have hmod : (pos : Int).tmod 80 = (pos % 80 : Nat) := Int.tmod_eq_emod_of_nonneg (by omega)
    refine ⟨s, pos + (80 - pos % 80), ?_, by omega, ?_, h.cells, h.unseen, h.written, h.outside, h.cleared⟩
    · rw [hmod, Prod.mk.injEq]
      exact ⟨rfl, by omega⟩
    · show (v.cursor / 80 + 1) * 80 = 80 * v.top + (pos + (80 - pos % 80))
      omega
  · split
    · refine ⟨s, pos - 1, ?_, by omega, ?_, h.cells, h.unseen, h.written, h.outside, h.cleared⟩
      · rw [Prod.mk.injEq]
        exact ⟨rfl, by split <;> omega⟩
      · show (if 80 * v.top < v.cursor then v.cursor - 1 else v.cursor) = 80 * v.top + (pos - 1)
        split <;> omega
    · have hput := h.putCell hpos (char_lt c)
      refine ⟨_, pos + 1, rfl, by omega, ?_, hput.cells, hput.unseen, hput.written, hput.outside, hput.cleared⟩
      show v.cursor + 1 = 80 * v.top + (pos + 1)
      omega

/-- The bytes after the copy and the clearing of a scroll. -/
theorem scrolled_apply (m : Bytes) (b : Nat) :
    memset (memcpy m crt (crt + 160) (2 * 23 * 80)) (crt + 3680) 0 160 b =
      if crt ≤ b ∧ b < crt + 3680 then m (b + 160)
      else if crt + 3680 ≤ b ∧ b < crt + 3840 then 0 else m b := by
  have hcrt := crt_eq
  have hcopy : memcpy m crt (crt + 160) (2 * 23 * 80) b =
      if crt ≤ b ∧ b < crt + 2 * 23 * 80 then m (crt + 160 + (b - crt)) else m b :=
    memmove_apply (by omega) (by omega)
  rw [memset_apply (by omega) (by decide), hcopy]
  by_cases hcopied : crt ≤ b ∧ b < crt + 3680
  · rw [if_neg (by omega), if_pos hcopied, if_pos hcopied, show crt + 160 + (b - crt) = b + 160 by omega]
  · rw [if_neg hcopied, if_neg (show ¬ (crt ≤ b ∧ b < crt + 2 * 23 * 80) by omega)]
    by_cases hclear : crt + 3680 ≤ b ∧ b < crt + 3840
    · rw [if_pos hclear, if_pos (by omega)]
      rfl
    · rw [if_neg hclear, if_neg (by omega)]

/-- A scroll happens with the cursor behind the last row. -/
theorem scroll_last (s : State) :
    s.scroll (24 * 80 : Nat) =
      ({ s with
          mem := memset (memcpy s.mem crt (crt + 160) (2 * 23 * 80)) (crt + 3680) 0 160
          written := s.written ∪ span crt (2 * 23 * 80) ∪ span (crt + 3680) 160
          cleared := s.cleared ++ [80] }, ((23 * 80 : Nat) : Int)) := by
  have hsrc : cellAddr 80 = crt + 160 := cellAddr_eq (i := 80) (by decide)
  have hdst : cellAddr ((24 * 80 : Nat) - 80) = crt + 3680 := cellAddr_eq (i := 23 * 80) (by decide)
  rw [State.scroll, if_pos (by decide), hsrc]
  dsimp only
  rw [hdst]
  rfl

theorem cellAt_scrolled (m : Bytes) {i : Nat} (hi : i < 24 * 80) :
    cellAt (memset (memcpy m crt (crt + 160) (2 * 23 * 80)) (crt + 3680) 0 160) i =
      if i < 23 * 80 then cellAt m (i + 80) else 0 := by
  rw [cellAt_eq, scrolled_apply, scrolled_apply]
  by_cases hrow : i < 23 * 80
  · rw [if_pos hrow, if_pos (by omega), if_pos (by omega), cellAt_eq, show crt + 2 * (i + 80) = crt + 2 * i + 160 by omega,
      show crt + 2 * i + 160 + 1 = crt + 2 * i + 1 + 160 by omega]
  · rw [if_neg hrow, if_neg (by omega), if_pos (by omega), if_neg (by omega), if_pos (by omega)]
    rfl

/-- The scroll moves the window by a row. -/
theorem Shows.scroll (h : Shows m s pos v) (hpos : pos ≤ 24 * 80) :
    ∃ s', ∃ pos' : Nat, s.scroll pos = (s', (pos' : Int)) ∧ pos' < 24 * 80 ∧ Shows m s' pos' v.follow := by
  have hcursor := h.cursor
  have hcrt := crt_eq
  by_cases hlast : pos = 24 * 80
  · subst hlast
    rw [Screen.follow, if_pos (by omega)]
    refine ⟨_, _, scroll_last s, by decide, ?_, fun i hi => ?_, fun j hj => ?_, fun a ha => ?_,
      fun a ha => ?_, fun n hn => ?_⟩
    · show v.cursor = 80 * (v.top + 1) + 23 * 80
      omega
    · show _ = v.cell (80 * (v.top + 1) + i)
      rw [cellAt_scrolled s.mem hi]
      split
      · rw [h.cells (i + 80) (by omega), show 80 * v.top + (i + 80) = 80 * (v.top + 1) + i by omega]
      · exact (h.unseen _ (by omega)).symm
    · have hj' : 80 * (v.top + 1) + 24 * 80 ≤ j := hj
      exact h.unseen j (by omega)
    · rcases ha with (ha | ha) | ha
      · exact h.written a ha
      · obtain ⟨hle, hlt⟩ := (mem_span_iff (show crt + 2 * 23 * 80 ≤ 2 ^ 64 by omega)).mp ha
        exact ⟨hle, by omega⟩
      · obtain ⟨hle, hlt⟩ := (mem_span_iff (show crt + 3680 + 160 ≤ 2 ^ 64 by omega)).mp ha
        exact ⟨Nat.le_trans (Nat.le_add_right crt 3680) hle, hlt⟩
    · show memset (memcpy s.mem crt (crt + 160) (2 * 23 * 80)) (crt + 3680) 0 160 a = m a
      rw [scrolled_apply, if_neg (by omega), if_neg (by omega)]
      exact h.outside a ha
    · rcases List.mem_append.mp hn with hn | hn
      · exact h.cleared n hn
      · rw [List.mem_singleton.mp hn]
        decide
  · have hdiv : (pos : Int).tdiv 80 = (pos / 80 : Nat) := Int.tdiv_eq_ediv_of_nonneg (by omega)
    rw [State.scroll, Screen.follow, hdiv, if_neg (by omega), if_neg (by omega)]
    exact ⟨s, pos, rfl, by omega, h⟩

theorem pos_setCursor (s : State) (hpos : pos < 24 * 80) : (s.setCursor pos).pos = pos := by
  have hlow : (BitVec.ofInt 8 (pos : Int)).toNat = pos % 256 := by
    rw [BitVec.toNat_ofInt]
    omega
  have hhigh : (BitVec.ofInt 8 ((pos : Int) >>> (8 : Nat))).toNat = pos / 256 := by
    rw [BitVec.toNat_ofInt, Int.shiftRight_eq_div_pow]
    omega
  rw [State.pos, State.setCursor]
  dsimp only
  rw [hlow, hhigh, ← Nat.shiftLeft_add_eq_or_of_lt (by omega), Nat.shiftLeft_eq]
  omega

/-- One call. -/
theorem Shows.step (h : Shows m s pos v) (hs : s.pos = pos) (hpos : pos < 24 * 80) (c : Int) :
    ∃ pos' : Nat, (cgaPutchar s c).pos = pos' ∧ pos' < 24 * 80 ∧
      Shows m (cgaPutchar s c) pos' (v.putchar c) := by
  obtain ⟨s₁, pos₁, hadvance, hle, hshows⟩ := h.advance hpos c
  obtain ⟨s₂, pos₂, hscroll, hlt, hshows₂⟩ := hshows.scroll hle
  have hcall : cgaPutchar s c = (s₂.setCursor pos₂).putCell pos₂ (0x20 ||| 0x0700) := by
    rw [cgaPutchar, hs, hadvance]
    dsimp only
    rw [hscroll]
  have hput : Shows m (s₂.setCursor pos₂) pos₂ (v.move c).follow :=
    ⟨hshows₂.cursor, hshows₂.cells, hshows₂.unseen, hshows₂.written, hshows₂.outside, hshows₂.cleared⟩
  have hcomm : (v.move c).follow.put (0x20 ||| 0x0700) = v.putchar c := by
    rw [Screen.putchar, Screen.follow, Screen.follow]
    split
    · rw [if_pos ‹_›]
      rfl
    · rw [if_neg ‹_›]
  rw [hcall]
  refine ⟨pos₂, pos_setCursor s₂ hlt, hlt, ?_⟩
  rw [← hcomm]
  exact hput.putCell hlt (by decide)

theorem Shows.run (h : Shows m s pos v) (hs : s.pos = pos) (hpos : pos < 24 * 80) (cs : List Int) :
    ∃ pos' : Nat, (cs.foldl cgaPutchar s).pos = pos' ∧ pos' < 24 * 80 ∧
      Shows m (cs.foldl cgaPutchar s) pos' (cs.foldl Screen.putchar v) := by
  induction cs generalizing s pos v with
  | nil => exact ⟨pos, hs, hpos, h⟩
  | cons c cs ih =>
      obtain ⟨pos', hs', hpos', h'⟩ := h.step hs hpos c
      exact ih h' hs' hpos'

end

/-- After any sequence of calls the screen shows the 24 rows of the terminal from its top
visible row on, with the cursor where it is there. -/
theorem cgaPutchar_refines (mem : Bytes) (cursorHigh cursorLow : BitVec 8)
    (hpos : (State.start mem cursorHigh cursorLow).pos < 24 * 80) (cs : List Int) :
    let s := cs.foldl cgaPutchar (State.start mem cursorHigh cursorLow)
    let v := cs.foldl Screen.putchar (Screen.start (State.start mem cursorHigh cursorLow))
    s.pos = v.cursor - 80 * v.top ∧ s.pos < 24 * 80 ∧
      (∀ i < 24 * 80, cellAt s.mem i = v.cell (80 * v.top + i)) ∧
      (∀ a ∈ s.written, crt ≤ a ∧ a < crt + 2 * (24 * 80)) ∧
      (∀ a, a < crt ∨ crt + 2 * (24 * 80) ≤ a → s.mem a = mem a) ∧
      ∀ n ∈ s.cleared, 0 ≤ n := by
  intro s v
  obtain ⟨pos, hstart⟩ : ∃ pos : Nat, (State.start mem cursorHigh cursorLow).pos = pos := ⟨_, rfl⟩
  have hshows : Shows mem (State.start mem cursorHigh cursorLow) pos
      (Screen.start (State.start mem cursorHigh cursorLow)) := by
    refine ⟨?_, fun i hi => ?_, fun j hj => ?_, fun a ha => absurd ha (Set.notMem_empty a),
      fun _ _ => rfl, fun n hn => absurd hn List.not_mem_nil⟩
    · rw [Screen.start, hstart]
      simp
    · rw [Screen.start]
      simp [hi]
    · have hj' : 24 * 80 ≤ j := by simpa [Screen.start] using hj
      rw [Screen.start]
      exact if_neg (by omega)
  obtain ⟨pos', hs, hlt, hfinal⟩ := hshows.run hstart (by omega) cs
  have hcursor : v.cursor = 80 * v.top + pos' := hfinal.cursor
  have hs' : s.pos = pos' := hs
  refine ⟨by omega, by omega, hfinal.cells, hfinal.written, hfinal.outside, hfinal.cleared⟩

/-- A letter in the last cell scrolls the screen. -/
theorem cgaPutchar_refines_last :
    (State.start (fun _ => 0) 0x07 0x7F).pos = 24 * 80 - 1 ∧
      ([0x41].foldl cgaPutchar (State.start (fun _ => 0) 0x07 0x7F)).pos = 23 * 80 ∧
      cellAt ([0x41].foldl cgaPutchar (State.start (fun _ => 0) 0x07 0x7F)).mem (23 * 80 - 1) = 0x0741 := by
  obtain ⟨hpos, _, hcells, _⟩ := cgaPutchar_refines (fun _ => 0) 0x07 0x7F (by decide) [0x41]
  refine ⟨by decide, hpos.trans (by decide +kernel), ?_⟩
  exact (hcells (23 * 80 - 1) (by decide)).trans (by decide +kernel)

end Cga
end GuideOS
