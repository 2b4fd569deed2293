import Mathlib.Data.List.Basic

/-!
# The words of a string, call by call

Each call brings its own delimiters.  It skips the delimiters from the position on and
takes the characters up to the next one, which is passed over as well.  A word is given by
the position of its first character and the position behind its last; at the end of the
string it is empty.
-/

namespace GuideOS
namespace Lib

structure Token where
  start : Nat
  stop : Nat
deriving DecidableEq, Repr

variable {α : Type*}

/-- The position behind a word and the delimiter that ends it. -/
def nextPos (cs : List α) (w : Token) : Nat := min (w.stop + 1) cs.length

theorem nextPos_le (cs : List α) (w : Token) : nextPos cs w ≤ cs.length := Nat.min_le_right ..

theorem drop_succ_of_drop {cs rest : List α} {pos : Nat} {c : α} (h : cs.drop pos = c :: rest) :
    cs.drop (pos + 1) = rest := by
  rw [← List.tail_drop, h]
  rfl

variable [DecidableEq α]

def tokenStart (cs : List α) (pos : Nat) (delims : List α) : Nat :=
  pos + ((cs.drop pos).takeWhile (· ∈ delims)).length

def tokenStop (cs : List α) (pos : Nat) (delims : List α) : Nat :=
  pos + ((cs.drop pos).takeWhile (· ∉ delims)).length

/-- The word that is found from `pos` on. -/
def nextToken (cs : List α) (pos : Nat) (delims : List α) : Token :=
  let start := tokenStart cs pos delims
  ⟨start, tokenStop cs start delims⟩

/-- The words that successive calls find. -/
def tokens (cs : List α) : Nat → List (List α) → List Token
  | _, [] => []
  | pos, ds :: dss => nextToken cs pos ds :: tokens cs (nextPos cs (nextToken cs pos ds)) dss

/-- The position after these calls. -/
def posAfter (cs : List α) : Nat → List (List α) → Nat
  | pos, [] => pos
  | pos, ds :: dss => posAfter cs (nextPos cs (nextToken cs pos ds)) dss

section

variable {cs ds rest : List α} {dss dss' : List (List α)} {pos : Nat} {c : α} {w : Token}

/-! ## One character -/

theorem tokenStart_end (h : cs.drop pos = []) : tokenStart cs pos ds = pos := by
  rw [tokenStart, h]
  rfl

theorem tokenStart_of_notMem (h : cs.drop pos = c :: rest) (hc : c ∉ ds) : tokenStart cs pos ds = pos := by
  rw [tokenStart, h, List.takeWhile_cons_of_neg (by simpa using hc)]
  rfl

theorem tokenStart_of_mem (h : cs.drop pos = c :: rest) (hc : c ∈ ds) :
    tokenStart cs pos ds = tokenStart cs (pos + 1) ds := by
  rw [tokenStart, tokenStart, h, drop_succ_of_drop h, List.takeWhile_cons_of_pos (by simpa using hc),
    List.length_cons]
  omega

theorem tokenStop_end (h : cs.drop pos = []) : tokenStop cs pos ds = pos := by
  rw [tokenStop, h]
  rfl

theorem tokenStop_of_mem (h : cs.drop pos = c :: rest) (hc : c ∈ ds) : tokenStop cs pos ds = pos := by
  rw [tokenStop, h, List.takeWhile_cons_of_neg (by simpa using hc)]
  rfl

theorem tokenStop_of_notMem (h : cs.drop pos = c :: rest) (hc : c ∉ ds) :
    tokenStop cs pos ds = tokenStop cs (pos + 1) ds := by
  rw [tokenStop, tokenStop, h, drop_succ_of_drop h, List.takeWhile_cons_of_pos (by simpa using hc),
    List.length_cons]
  omega

/-! ## One word -/

theorem nextToken_end (h : cs.drop pos = []) : nextToken cs pos ds = ⟨pos, pos⟩ := by
  rw [nextToken, tokenStart_end h, tokenStop_end h]

theorem nextToken_of_mem (h : cs.drop pos = c :: rest) (hc : c ∈ ds) :
    nextToken cs pos ds = nextToken cs (pos + 1) ds := by
  rw [nextToken, nextToken, tokenStart_of_mem h hc]

theorem nextToken_of_notMem (h : cs.drop pos = c :: rest) (hc : c ∉ ds) :
    nextToken cs pos ds = ⟨pos, tokenStop cs (pos + 1) ds⟩ := by
  rw [nextToken, tokenStart_of_notMem h hc, tokenStop_of_notMem h hc]

theorem tokenStop_bounds (h : pos ≤ cs.length) (ds : List α) : pos ≤ tokenStop cs pos ds ∧ tokenStop cs pos ds ≤ cs.length := by
  have hle := (List.takeWhile_sublist (l := cs.drop pos) (· ∉ ds)).length_le
  rw [List.length_drop] at hle
  rw [tokenStop]
  omega

/-- A word lies between the position and the end, and is empty only at the end. -/
theorem nextToken_bounds (h : pos ≤ cs.length) (ds : List α) :
    pos ≤ (nextToken cs pos ds).start ∧ (nextToken cs pos ds).start ≤ (nextToken cs pos ds).stop ∧
      (nextToken cs pos ds).stop ≤ cs.length ∧
      ((nextToken cs pos ds).start = (nextToken cs pos ds).stop → (nextToken cs pos ds).stop = cs.length) := by
  generalize hrest : cs.drop pos = rest
  induction rest generalizing pos with
  | nil =>
      rw [nextToken_end hrest]
      have hlen := List.drop_eq_nil_iff.mp hrest
      exact ⟨Nat.le_refl _, Nat.le_refl _, h, fun _ => Nat.le_antisymm h hlen⟩
  | cons c rest ih =>
      have hlt : pos + 1 ≤ cs.length := by
        have hlen := congrArg List.length hrest
        rw [List.length_drop, List.length_cons] at hlen
        omega
      by_cases hc : c ∈ ds
      · rw [nextToken_of_mem hrest hc]
        obtain ⟨hstart, hrest'⟩ := ih hlt (drop_succ_of_drop hrest)
        exact ⟨Nat.le_of_succ_le hstart, hrest'⟩
      · rw [nextToken_of_notMem hrest hc]
        obtain ⟨hstop, hend⟩ := tokenStop_bounds hlt ds
        exact ⟨Nat.le_refl _, Nat.le_of_succ_le hstop, hend, fun heq => absurd heq (Nat.ne_of_lt hstop)⟩

/-! ## All words -/

theorem tokens_append (cs : List α) (pos : Nat) (dss dss' : List (List α)) :
    tokens cs pos (dss ++ dss') = tokens cs pos dss ++ tokens cs (posAfter cs pos dss) dss' := by
  induction dss generalizing pos with
  | nil => rfl
  | cons ds dss ih => rw [List.cons_append, tokens, tokens, ih, posAfter, List.cons_append]

theorem posAfter_append (cs : List α) (pos : Nat) (dss dss' : List (List α)) :
    posAfter cs pos (dss ++ dss') = posAfter cs (posAfter cs pos dss) dss' := by
  induction dss generalizing pos with
  | nil => rfl
  | cons ds dss ih => rw [List.cons_append, posAfter, posAfter, ih]

theorem posAfter_le (h : pos ≤ cs.length) (dss : List (List α)) : posAfter cs pos dss ≤ cs.length := by
  induction dss generalizing pos with
  | nil => exact h
  | cons ds dss ih => exact ih (nextPos_le cs _)

theorem le_posAfter (h : pos ≤ cs.length) (dss : List (List α)) : pos ≤ posAfter cs pos dss := by
  induction dss generalizing pos with
  | nil => exact Nat.le_refl _
  | cons ds dss ih =>
      obtain ⟨hstart, hstop, hend, -⟩ := nextToken_bounds h ds
      have hnext : pos ≤ nextPos cs (nextToken cs pos ds) := by
        rw [nextPos]
        omega
      exact Nat.le_trans hnext (ih (nextPos_le cs _))

/-- The words lie before the position that is reached. -/
theorem tokens_bounds (h : pos ≤ cs.length) (dss : List (List α)) :
    ∀ w ∈ tokens cs pos dss, w.start ≤ w.stop ∧ w.stop ≤ posAfter cs pos dss := by
  induction dss generalizing pos with
  | nil => exact fun w hw => absurd hw List.not_mem_nil
  | cons ds dss ih =>
      obtain ⟨-, hstop, hend, -⟩ := nextToken_bounds h ds
      have hnext : (nextToken cs pos ds).stop ≤ nextPos cs (nextToken cs pos ds) := by
        rw [nextPos]
        omega
      exact List.forall_mem_cons.mpr
        ⟨⟨hstop, Nat.le_trans hnext (le_posAfter (nextPos_le cs _) dss)⟩, ih (nextPos_le cs _)⟩

theorem length_tokens (cs : List α) (pos : Nat) (dss : List (List α)) :
    (tokens cs pos dss).length = dss.length := by
  induction dss generalizing pos with
  | nil => rfl
  | cons ds dss ih => rw [tokens, List.length_cons, List.length_cons, ih]

/-- At the end of the string every word is empty. -/
theorem tokens_end (cs : List α) (dss : List (List α)) :
    ∀ w ∈ tokens cs cs.length dss, w = ⟨cs.length, cs.length⟩ := by
  have hend : cs.drop cs.length = [] := List.drop_length
  induction dss with
  | nil => exact fun w hw => absurd hw List.not_mem_nil
  | cons ds dss ih =>
      rw [tokens, nextToken_end hend, nextPos, Nat.min_eq_right (Nat.le_succ _)]
      exact List.forall_mem_cons.mpr ⟨rfl, ih⟩

end

end Lib
end GuideOS
