import GuideOS.Kshell.ReadLine

/-!
# The words of a line

`ksh_split_line` of `kshell.c`.  It cuts the line into words in place and stores a
pointer to each, with a null pointer behind them.  The line and the array of pointers
are given by their cells; a pointer into the line is its address plus an index.  The
loops take fuel, and the state records which cells they access.
-/

namespace GuideOS
namespace Kshell

/-- `CMD_MAX_PARTS` -/
def cmdMaxParts : Nat := 32

def space : BitVec 8 := 0x20

structure Split where
  line : Nat → BitVec 8
  tokens : Nat → Nat
  /-- the indices at which the line was read or written -/
  lineAt : List Nat
  /-- the indices at which a token was stored -/
  tokensAt : List Nat

def Split.touch (s : Split) (i : Nat) : Split := { s with lineAt := s.lineAt ++ [i] }

def Split.storeToken (s : Split) (i p : Nat) : Split :=
  { s with tokens := Function.update s.tokens i p, tokensAt := s.tokensAt ++ [i] }

/-- `while(line[line_position] != ' ' && line[line_position] != '\0')` -/
def skipWord (s : Split) (linePosition : Nat) : Nat → Option (Split × Nat)
  | 0 => none
  | fuel + 1 =>
      let s := s.touch linePosition
      if s.line linePosition ≠ space ∧ s.line linePosition ≠ 0 then
        skipWord s (linePosition + 1) fuel
      else some (s, linePosition)

/-- `while(line[line_position] == ' ' && line[line_position] != '\0')` -/
def clearSpaces (s : Split) (linePosition : Nat) : Nat → Option (Split × Nat)
  | 0 => none
  | fuel + 1 =>
      let s := s.touch linePosition
      if s.line linePosition = space ∧ s.line linePosition ≠ 0 then
        clearSpaces { s with line := Function.update s.line linePosition 0 } (linePosition + 1) fuel
      else some (s, linePosition)

def splitLoop (line : Nat) (s : Split) (tokenPosition linePosition : Nat) :
    Nat → Option (Split × Nat)
  | 0 => none
  | fuel + 1 =>
      let s := s.touch linePosition
      if s.line linePosition ≠ 0 ∧ linePosition < cmdMaxLen ∧ tokenPosition < cmdMaxLen then do
        let (s, linePosition) ←
          skipWord (s.storeToken tokenPosition (line + linePosition)) linePosition fuel
        let (s, linePosition) ← clearSpaces s linePosition fuel
        splitLoop line s (tokenPosition + 1) linePosition fuel
      else some (s, tokenPosition)

/-- The result is the return value, with the state after the call. -/
def kshSplitLine (line tokens : Nat) (s : Split) (fuel : Nat) : Option (Nat × Split) :=
  if line = 0 ∨ tokens = 0 then some (0, s)
  else do
    let (s, tokenPosition) ← splitLoop line s 0 0 fuel
    return (tokenPosition, s.storeToken tokenPosition 0)

/-! ## Lines and words -/

/-- The bytes `cs` lie from `p` on. -/
def At (f : Nat → BitVec 8) (p : Nat) : List (BitVec 8) → Prop
  | [] => True
  | c :: cs => f p = c ∧ At f (p + 1) cs

/-- The maximal runs of other characters than spaces. -/
def words (cs : List (BitVec 8)) : List (List (BitVec 8)) := (cs.splitOn space).filter (· ≠ [])

/-- What the tokens point to: a space at the front makes an empty one. -/
def pieces (cs : List (BitVec 8)) : List (List (BitVec 8)) :=
  if cs.head? = some space then [] :: words cs else words cs

/-- The line holds `cs`, which is shorter than the buffer, and its terminator. -/
structure IsLine (f : Nat → BitVec 8) (cs : List (BitVec 8)) : Prop where
  bytes : At f 0 (cs ++ [0])
  char : ∀ c ∈ cs, c ≠ 0
  short : cs.length < cmdMaxLen

section

variable {f g : Nat → BitVec 8} {p : Nat} {cs ds w sp rest : List (BitVec 8)}

theorem at_append : At f p (cs ++ ds) ↔ At f p cs ∧ At f (p + cs.length) ds := by
  induction cs generalizing p with
  | nil => simp [At]
  | cons c cs ih =>
      rw [List.cons_append, At, ih, At, List.length_cons, and_assoc,
        show p + 1 + cs.length = p + (cs.length + 1) by omega]

theorem At.congr (h : At f p cs) (hg : ∀ i, p ≤ i → i < p + cs.length → g i = f i) : At g p cs := by
  induction cs generalizing p with
  | nil => trivial
  | cons c cs ih =>
      rw [List.length_cons] at hg
      refine ⟨?_, ih h.2 fun i hi hi' => hg i (by omega) (by omega)⟩
      rw [hg p (Nat.le_refl p) (by omega)]
      exact h.1

theorem words_nil : words [] = [] := rfl

theorem words_space (cs : List (BitVec 8)) : words (space :: cs) = words cs := by
  rw [words, List.splitOn_cons_eq_if_modifyHead, if_pos (BEq.refl space)]
  rfl

theorem words_spaces (hsp : ∀ c ∈ sp, c = space) (cs : List (BitVec 8)) :
    words (sp ++ cs) = words cs := by
  induction sp with
  | nil => rfl
  | cons c sp ih =>
      obtain ⟨rfl, hsp'⟩ := List.forall_mem_cons.mp hsp
      rw [List.cons_append, words_space, ih hsp']

theorem words_word (hw : w ≠ []) (hchar : ∀ c ∈ w, c ≠ space) : words w = [w] := by
  rw [words, List.splitOn_eq_singleton fun h => hchar space h rfl]
  simp [hw]

/-- A word ends at a space. -/
theorem words_append (hw : w ≠ []) (hchar : ∀ c ∈ w, c ≠ space) (hsp : ∀ c ∈ sp, c = space)
    (hend : sp = [] → rest = []) : words (w ++ (sp ++ rest)) = w :: words rest := by
  cases sp with
  | nil =>
      rw [hend rfl, List.append_nil, List.append_nil, words_word hw hchar, words_nil]
  | cons c sp =>
      obtain ⟨rfl, hsp⟩ := List.forall_mem_cons.mp hsp
      have hsplit : (w ++ space :: (sp ++ rest)).splitOn space = w :: (sp ++ rest).splitOn space :=
        List.splitOn_append_cons_self_of_not_mem (fun h => hchar space h rfl) _
      rw [List.cons_append, words, hsplit, List.filter_cons_of_pos (by simpa using hw)]
      exact congrArg (w :: ·) (words_spaces hsp rest)

/-- A line begins with a word, maybe empty, and the spaces behind it. -/
theorem exists_word (cs : List (BitVec 8)) :
    ∃ w sp rest, cs = w ++ (sp ++ rest) ∧ (∀ c ∈ w, c ≠ space) ∧ (∀ c ∈ sp, c = space) ∧
      rest.head? ≠ some space ∧ (sp = [] → rest = []) := by
  induction cs with
  | nil => exact ⟨[], [], [], rfl, by simp, by simp, by simp, fun _ => rfl⟩
  | cons c cs ih =>
      obtain ⟨w, sp, rest, rfl, hw, hsp, hrest, hend⟩ := ih
      by_cases hc : c = space
      · cases w with
        | nil =>
            exact ⟨[], c :: sp, rest, rfl, hw, List.forall_mem_cons.mpr ⟨hc, hsp⟩, hrest, by simp⟩
        | cons d w =>
            have hd := hw d List.mem_cons_self
            exact ⟨[], [c], d :: w ++ (sp ++ rest), rfl, by simp, by simpa using hc, by simpa using hd, by simp⟩
      · exact ⟨c :: w, sp, rest, rfl, List.forall_mem_cons.mpr ⟨hc, hw⟩, hsp, hrest, hend⟩

end

/-! ## The loops -/

/-- Nothing but cells of the line up to `n` was read. -/
structure Reads (s : Split) (n : Nat) (s' : Split) : Prop where
  line : s'.line = s.line
  tokens : s'.tokens = s.tokens
  tokensAt : s'.tokensAt = s.tokensAt
  lineAt : ∀ i ∈ s'.lineAt, i ∈ s.lineAt ∨ i ≤ n

section

variable {s s' : Split} {w sp rest : List (BitVec 8)} {c : BitVec 8} {p n fuel : Nat}

theorem touch_reads (h : p ≤ n) : Reads s n (s.touch p) where
  line := rfl
  tokens := rfl
  tokensAt := rfl
  lineAt i hi := by
    rcases List.mem_append.mp hi with hi | hi
    · exact Or.inl hi
    · exact Or.inr (List.mem_singleton.mp hi ▸ h)

theorem Reads.trans {s'' : Split} (h : Reads s n s') (h' : Reads s' n s'') : Reads s n s'' where
  line := h'.line.trans h.line
  tokens := h'.tokens.trans h.tokens
  tokensAt := h'.tokensAt.trans h.tokensAt
  lineAt i hi := (h'.lineAt i hi).elim (h.lineAt i) Or.inr

theorem skipWord_ok (hw : ∀ x ∈ w, x ≠ space ∧ x ≠ 0) (hc : c = space ∨ c = 0)
    (h : At s.line p (w ++ [c])) (hfuel : w.length < fuel) (hn : p + w.length ≤ n) :
    ∃ s', skipWord s p fuel = some (s', p + w.length) ∧ Reads s n s' := by
  induction w generalizing s p fuel with
  | nil =>
      obtain ⟨fuel, rfl⟩ := Nat.exists_eq_succ_of_ne_zero (Nat.ne_of_gt hfuel)
      have hstop : ¬ ((s.touch p).line p ≠ space ∧ (s.touch p).line p ≠ 0) := by
        rw [show (s.touch p).line p = c from h.1]
        rcases hc with rfl | rfl <;> decide
      exact ⟨s.touch p, by rw [skipWord, if_neg hstop]; rfl, touch_reads hn⟩
  | cons x w ih =>
      rw [List.length_cons] at hfuel hn
      obtain ⟨fuel, rfl⟩ := Nat.exists_eq_succ_of_ne_zero (show fuel ≠ 0 by omega)
      obtain ⟨hx, hw⟩ := List.forall_mem_cons.mp hw
      have hgo : (s.touch p).line p ≠ space ∧ (s.touch p).line p ≠ 0 := by
        rw [show (s.touch p).line p = x from h.1]
        exact hx
      obtain ⟨s', hrun, hreads⟩ := ih (s := s.touch p) hw h.2 (Nat.lt_of_succ_lt_succ hfuel) (by omega)
      refine ⟨s', ?_, (touch_reads (by omega)).trans hreads⟩
      rw [skipWord, if_pos hgo, hrun, List.length_cons, show p + 1 + w.length = p + (w.length + 1) by omega]

/-- The spaces from `p` to `q` were overwritten. -/
structure Clears (s : Split) (p q n : Nat) (s' : Split) : Prop where
  cleared : ∀ i, p ≤ i → i < q → s'.line i = 0
  line : ∀ i, i < p ∨ q ≤ i → s'.line i = s.line i
  tokens : s'.tokens = s.tokens
  tokensAt : s'.tokensAt = s.tokensAt
  lineAt : ∀ i ∈ s'.lineAt, i ∈ s.lineAt ∨ i ≤ n

theorem clearSpaces_ok (hsp : ∀ x ∈ sp, x = space) (hc : c ≠ space) (h : At s.line p (sp ++ [c]))
    (hfuel : sp.length < fuel) (hn : p + sp.length ≤ n) :
    ∃ s', clearSpaces s p fuel = some (s', p + sp.length) ∧ Clears s p (p + sp.length) n s' := by
  induction sp generalizing s p fuel with
  | nil =>
      obtain ⟨fuel, rfl⟩ := Nat.exists_eq_succ_of_ne_zero (Nat.ne_of_gt hfuel)
      have hstop : ¬ ((s.touch p).line p = space ∧ (s.touch p).line p ≠ 0) := by
        rw [show (s.touch p).line p = c from h.1]
        exact fun hboth => hc hboth.1
      refine ⟨s.touch p, by rw [clearSpaces, if_neg hstop]; rfl, ?_, fun _ _ => rfl, rfl, rfl,
        (touch_reads hn).lineAt⟩
      intro i hi hi'
      rw [List.length_nil] at hi'
      omega
  | cons x sp ih =>
      rw [List.length_cons] at hfuel hn
      obtain ⟨fuel, rfl⟩ := Nat.exists_eq_succ_of_ne_zero (show fuel ≠ 0 by omega)
      obtain ⟨rfl, hsp'⟩ := List.forall_mem_cons.mp hsp
      have hgo : (s.touch p).line p = space ∧ (s.touch p).line p ≠ 0 := by
        rw [show (s.touch p).line p = space from h.1]
        decide
      have hrest : At (Function.update s.line p 0) (p + 1) (sp ++ [c]) :=
        h.2.congr fun i hi _ => Function.update_of_ne (by omega) ..
      obtain ⟨s', hrun, hclears⟩ := ih (s := { s.touch p with line := Function.update s.line p 0 }) hsp'
        hrest (Nat.lt_of_succ_lt_succ hfuel) (by omega)
      refine ⟨s', ?_, fun i hi hi' => ?_, fun i hi => ?_, hclears.tokens, hclears.tokensAt, fun i hi => ?_⟩
      · rw [clearSpaces, if_pos hgo]
        simp only [Split.touch] at hrun ⊢
        rw [hrun, List.length_cons, show p + 1 + sp.length = p + (sp.length + 1) by omega]
      · by_cases hip : i = p
        · rw [hip, hclears.line p (Or.inl (Nat.lt_succ_self p))]
          exact Function.update_self ..
        · exact hclears.cleared i (by omega) (by rw [List.length_cons] at hi'; omega)
      · rw [List.length_cons] at hi
        rw [hclears.line i (by omega)]
        exact Function.update_of_ne (by omega) ..
      · exact (hclears.lineAt i hi).elim ((touch_reads (by omega)).lineAt i) Or.inr

/-- One turn of the outer loop took the word `w` and the spaces `sp` behind it. -/
structure Turn (line : Nat) (s : Split) (t p : Nat) (w sp : List (BitVec 8)) (n : Nat) (s' : Split) :
    Prop where
  kept : ∀ i, i < p + w.length ∨ p + w.length + sp.length ≤ i → s'.line i = s.line i
  cleared : ∀ i, p + w.length ≤ i → i < p + w.length + sp.length → s'.line i = 0
  tokens : s'.tokens = Function.update s.tokens t (line + p)
  tokensAt : s'.tokensAt = s.tokensAt ++ [t]
  lineAt : ∀ i ∈ s'.lineAt, i ∈ s.lineAt ∨ i ≤ n

/-- A word ends at a space or at the terminator. -/
theorem at_word_end {f : Nat → BitVec 8} (hsp : ∀ x ∈ sp, x = space) (hend : sp = [] → rest = [])
    (h : At f p (sp ++ (rest ++ [0]))) : f p = space ∨ f p = 0 := by
  cases sp with
  | cons x sp => exact Or.inl (h.1.trans (hsp x List.mem_cons_self))
  | nil =>
      rw [hend rfl] at h
      exact Or.inr h.1

/-- Behind the spaces there is none. -/
theorem at_spaces_end {f : Nat → BitVec 8} (hrest : rest.head? ≠ some space) (h : At f p (rest ++ [0])) :
    f p ≠ space := by
  cases rest with
  | cons x rest =>
      rw [show f p = x from h.1]
      exact fun e => hrest (congrArg some e)
  | nil =>
      rw [show f p = 0 from h.1]
      decide

theorem splitLoop_turn {t : Nat} (line : Nat) (hw : ∀ x ∈ w, x ≠ space ∧ x ≠ 0)
    (hsp : ∀ x ∈ sp, x = space) (hrest : rest.head? ≠ some space) (hend : sp = [] → rest = [])
    (hne : w ++ sp ≠ []) (h : At s.line p (w ++ (sp ++ (rest ++ [0]))))
    (hn : p + w.length + sp.length ≤ n) (hp : p < cmdMaxLen) (ht : t < cmdMaxLen)
    (hfuel : w.length + sp.length < fuel) :
    ∃ s', splitLoop line s t p (fuel + 1) =
        splitLoop line s' (t + 1) (p + w.length + sp.length) fuel ∧ Turn line s t p w sp n s' := by
  obtain ⟨hword, hsps⟩ := at_append.mp h
  obtain ⟨hspaces, hnext⟩ := at_append.mp hsps
  have hgo : s.line p ≠ 0 := by
    cases w with
    | cons x w =>
        rw [hword.1]
        exact (hw x List.mem_cons_self).2
    | nil =>
        cases sp with
        | cons x sp =>
            rw [show s.line p = x from hspaces.1, hsp x List.mem_cons_self]
            decide
        | nil => exact absurd rfl hne
  obtain ⟨s₁, hskip, hreads⟩ := skipWord_ok (s := (s.touch p).storeToken t (line + p)) (p := p) hw
    (at_word_end hsp hend hsps) (at_append.mpr ⟨hword, rfl, trivial⟩) (show w.length < fuel by omega)
    (show p + w.length ≤ n by omega)
  have hline : s₁.line = s.line := hreads.line
  have hat : At s₁.line (p + w.length) (sp ++ [s.line (p + w.length + sp.length)]) := by
    rw [hline]
    exact at_append.mpr ⟨hspaces, rfl, trivial⟩
  obtain ⟨s₂, hclear, hclears⟩ := clearSpaces_ok hsp (at_spaces_end hrest hnext) hat
    (show sp.length < fuel by omega) hn
  refine ⟨s₂, ?_, ⟨fun i hi => ?_, hclears.cleared, ?_, ?_, fun i hi => ?_⟩⟩
  · have hcond : (s.touch p).line p ≠ 0 ∧ p < cmdMaxLen ∧ t < cmdMaxLen := ⟨hgo, hp, ht⟩
    rw [splitLoop, if_pos hcond]
    simp only [hskip, hclear, Option.bind_eq_bind, Option.bind_some]
  · rw [hclears.line i hi, hline]
  · rw [hclears.tokens, hreads.tokens]
    rfl
  · rw [hclears.tokensAt, hreads.tokensAt]
    rfl
  · rcases hclears.lineAt i hi with hi | hi
    · rcases hreads.lineAt i hi with hi | hi
      · exact (touch_reads (show p ≤ n by omega)).lineAt i hi
      · exact Or.inr hi
    · exact Or.inr hi

/-- The loop took the words `ws` from `p` on, up to the terminator at `n`. -/
structure Done (line : Nat) (s : Split) (t p : Nat) (ws : List (List (BitVec 8))) (n : Nat)
    (s' : Split) : Prop where
  tokens : ∀ k (hk : k < ws.length), ∃ q, s'.tokens (t + k) = line + q ∧ At s'.line q (ws[k] ++ [0])
  before : ∀ i < t, s'.tokens i = s.tokens i
  kept : ∀ i < p, s'.line i = s.line i
  stop : s'.line n = 0
  lineAt : ∀ i ∈ s'.lineAt, i ∈ s.lineAt ∨ i ≤ n
  tokensAt : ∀ i ∈ s'.tokensAt, i ∈ s.tokensAt ∨ i < t + ws.length

theorem Turn.done {t line : Nat} {ws : List (List (BitVec 8))} {s'' : Split}
    (h : Turn line s t p w sp n s') (hdone : Done line s' (t + 1) (p + w.length + sp.length) ws n s'')
    (hw : At s.line p w) (hend : sp = [] → n = p + w.length) : Done line s t p (w :: ws) n s'' := by
  have hbytes : At s''.line p (w ++ [0]) := by
    refine at_append.mpr ⟨hw.congr fun i _ hi => ?_, ?_, trivial⟩
    · rw [hdone.kept i (by omega), h.kept i (Or.inl hi)]
    · by_cases hsp : sp = []
      · rw [← hend hsp]
        exact hdone.stop
      · have hpos := List.length_pos_iff.mpr hsp
        rw [hdone.kept _ (by omega)]
        exact h.cleared _ (Nat.le_refl _) (by omega)
  refine ⟨fun k hk => ?_, fun i hi => ?_, fun i hi => ?_, hdone.stop, fun i hi => ?_, fun i hi => ?_⟩
  · cases k with
    | zero =>
        refine ⟨p, ?_, hbytes⟩
        rw [Nat.add_zero, hdone.before t (Nat.lt_succ_self t), h.tokens, Function.update_self]
    | succ k =>
        rw [List.length_cons] at hk
        obtain ⟨q, hq, hat⟩ := hdone.tokens k (by omega)
        exact ⟨q, by rw [show t + (k + 1) = t + 1 + k by omega]; exact hq, hat⟩
  · rw [hdone.before i (by omega), h.tokens, Function.update_of_ne (by omega)]
  · rw [hdone.kept i (by omega), h.kept i (by omega)]
  · exact (hdone.lineAt i hi).elim (h.lineAt i) Or.inr
  · rw [List.length_cons]
    rcases hdone.tokensAt i hi with hi | hi
    · rw [h.tokensAt] at hi
      rcases List.mem_append.mp hi with hi | hi
      · exact Or.inl hi
      · rw [List.mem_singleton.mp hi]
        exact Or.inr (by omega)
    · exact Or.inr (by omega)

/-- The loop ends at the terminator. -/
theorem splitLoop_stop {t : Nat} (line : Nat) (h : s.line p = 0) (hfuel : 0 < fuel) :
    ∃ s', splitLoop line s t p fuel = some (s', t) ∧ Done line s t p [] p s' := by
  obtain ⟨fuel, rfl⟩ := Nat.exists_eq_succ_of_ne_zero (Nat.ne_of_gt hfuel)
  have hstop : ¬ ((s.touch p).line p ≠ 0 ∧ p < cmdMaxLen ∧ t < cmdMaxLen) := fun hall => hall.1 h
  refine ⟨s.touch p, by rw [splitLoop, if_neg hstop], ?_, fun _ _ => rfl, fun _ _ => rfl, h,
    (touch_reads (Nat.le_refl p)).lineAt, fun i hi => Or.inl hi⟩
  intro k hk
  exact absurd hk (Nat.not_lt_zero k)

theorem splitLoop_ok {t : Nat} (line : Nat) {cs : List (BitVec 8)} (hfirst : cs.head? ≠ some space)
    (hcs : ∀ c ∈ cs, c ≠ 0) (h : At s.line p (cs ++ [0])) (hp : p + cs.length < cmdMaxLen) (ht : t ≤ p)
    (hfuel : cs.length + 2 ≤ fuel) :
    ∃ s', splitLoop line s t p fuel = some (s', t + (words cs).length) ∧
      Done line s t p (words cs) (p + cs.length) s' := by
  induction hlen : cs.length using Nat.strong_induction_on generalizing s t p cs fuel with
  | _ len ih =>
      obtain ⟨w, sp, rest, rfl, hw, hsp, hrest, hend⟩ := exists_word cs
      cases w with
      | nil =>
          -- The line does not begin with a space, so nothing is left of it.
          have hnil : sp = [] := by
            cases sp with
            | nil => rfl
            | cons x sp => exact absurd (congrArg some (hsp x List.mem_cons_self)) hfirst
          rw [hnil, hend hnil] at h hlen ⊢
          subst hlen
          exact splitLoop_stop line h.1 (by omega)
      | cons x w =>
          obtain ⟨fuel, rfl⟩ := Nat.exists_eq_succ_of_ne_zero (show fuel ≠ 0 by omega)
          have hsize : len = (x :: w).length + sp.length + rest.length := by
            rw [← hlen, List.length_append, List.length_append, Nat.add_assoc]
          rw [hlen] at hp hfuel
          have hpos : 0 < (x :: w).length := Nat.succ_pos _
          rw [List.append_assoc, List.append_assoc] at h
          obtain ⟨s₁, hrun, hturn⟩ := splitLoop_turn (t := t) (n := p + len) line
            (fun c hc => ⟨hw c hc, hcs c (List.mem_append_left _ hc)⟩) hsp hrest hend (by simp) h
            (by omega) (by omega) (by omega) (show (x :: w).length + sp.length < fuel by omega)
          have hrest' : At s₁.line (p + (x :: w).length + sp.length) (rest ++ [0]) := by
            refine (at_append.mp (at_append.mp h).2).2.congr fun i hi _ => hturn.kept i (Or.inr hi)
          obtain ⟨s', hloop, hdone⟩ := ih rest.length (by omega) (t := t + 1) hrest
            (fun c hc => hcs c (List.mem_append_right _ (List.mem_append_right _ hc))) hrest' (by omega)
            (by omega) (show rest.length + 2 ≤ fuel by omega) rfl
          rw [words_append (List.cons_ne_nil x w) hw hsp hend]
          refine ⟨s', ?_, ?_⟩
          · rw [hrun, hloop, List.length_cons, show t + 1 + (words rest).length = t + ((words rest).length + 1) by omega]
          · rw [show p + (x :: w).length + sp.length + rest.length = p + len by omega] at hdone
            refine hturn.done hdone (at_append.mp h).1 fun hnil => ?_
            rw [hnil, hend hnil] at hsize
            rw [hsize]
            rfl

/-- The loop from the front of a line: a space there makes an empty token. -/
theorem IsLine.splitLoop {cs : List (BitVec 8)} (h : IsLine s.line cs) (line : Nat)
    (hfuel : cs.length + 2 ≤ fuel) :
    ∃ s', splitLoop line s 0 0 fuel = some (s', (pieces cs).length) ∧
      Done line s 0 0 (pieces cs) cs.length s' := by
  have hbytes := h.bytes
  have hshort := h.short
  rw [pieces]
  by_cases hfirst : cs.head? = some space
  · obtain ⟨w, sp, rest, rfl, hw, hsp, hrest, hend⟩ := exists_word cs
    have hnil : w = [] := by
      cases w with
      | nil => rfl
      | cons x w => exact absurd (Option.some.inj hfirst) (hw x List.mem_cons_self)
    subst hnil
    rw [List.nil_append] at hbytes hshort hfuel hfirst ⊢
    have hne : sp ≠ [] := by
      rintro rfl
      rw [hend rfl] at hfirst
      cases hfirst
    have hpos := List.length_pos_iff.mpr hne
    obtain ⟨fuel, rfl⟩ := Nat.exists_eq_succ_of_ne_zero (show fuel ≠ 0 by omega)
    rw [List.append_assoc] at hbytes
    rw [List.length_append] at hshort hfuel
    have hzero : 0 + ([] : List (BitVec 8)).length + sp.length = sp.length := by simp
    obtain ⟨s₁, hrun, hturn⟩ := splitLoop_turn (w := []) (t := 0) (n := (sp ++ rest).length) line
      (fun _ hx => absurd hx List.not_mem_nil) hsp hrest hend (by simpa using hne) hbytes (by simp)
      (by decide) (by decide) (show ([] : List (BitVec 8)).length + sp.length < fuel by
        rw [List.length_nil]
        omega)
    have hrest' : At s₁.line (0 + ([] : List (BitVec 8)).length + sp.length) (rest ++ [0]) := by
      have hnext := (at_append.mp hbytes).2
      rw [Nat.zero_add, ← hzero] at hnext
      exact hnext.congr fun i hi _ => hturn.kept i (Or.inr hi)
    obtain ⟨s', hloop, hdone⟩ := splitLoop_ok (t := 1) line hrest
      (fun c hc => h.char c (List.mem_append_right _ (List.mem_append_right _ hc))) hrest' (by omega)
      (by omega) (show rest.length + 2 ≤ fuel by omega)
    rw [if_pos hfirst, words_spaces hsp]
    refine ⟨s', ?_, hturn.done ?_ trivial fun e => absurd e hne⟩
    · rw [hrun, hloop, List.length_cons, Nat.add_comm]
    · rw [hzero, ← List.length_append] at hdone
      rw [hzero]
      exact hdone
  · rw [if_neg hfirst]
    obtain ⟨s', hrun, hdone⟩ := splitLoop_ok (t := 0) line hfirst h.char hbytes (by omega) (Nat.le_refl 0) hfuel
    rw [Nat.zero_add] at hrun hdone
    exact ⟨s', hrun, hdone⟩

end

/-! ## Calls -/

/-- The arguments of a call, with nothing accessed yet. -/
def Split.start (f : Nat → BitVec 8) (tokens : Nat → Nat) : Split := ⟨f, tokens, [], []⟩

/-- The call returns, stores its tokens in an array of `CMD_MAX_PARTS` pointers and
accesses the line up to its terminator. -/
def InBounds (line tokens : Nat) (s : Split) (cs : List (BitVec 8)) : Prop :=
  ∀ fuel, cs.length + 2 ≤ fuel → ∃ r s', kshSplitLine line tokens s fuel = some (r, s') ∧
    (∀ i ∈ s'.tokensAt, i < cmdMaxParts) ∧ ∀ i ∈ s'.lineAt, i ≤ cs.length

/-- The call returns the number of words, and the tokens point to them. -/
def Tokenizes (line tokens : Nat) (s : Split) (cs : List (BitVec 8)) : Prop :=
  ∀ fuel, cs.length + 2 ≤ fuel → ∃ s', kshSplitLine line tokens s fuel = some ((words cs).length, s') ∧
    (∀ k (hk : k < (words cs).length), ∃ q, s'.tokens k = line + q ∧
      At s'.line q ((words cs)[k] ++ [0])) ∧
    s'.tokens (words cs).length = 0

section

variable {line tokens : Nat} {f : Nat → BitVec 8} {toks : Nat → Nat} {cs : List (BitVec 8)}

theorem IsLine.kshSplitLine (h : IsLine f cs) (toks : Nat → Nat) (hline : line ≠ 0) (htokens : tokens ≠ 0) {fuel : Nat}
    (hfuel : cs.length + 2 ≤ fuel) :
    ∃ s', kshSplitLine line tokens (Split.start f toks) fuel =
        some ((pieces cs).length, s'.storeToken (pieces cs).length 0) ∧
      Done line (Split.start f toks) 0 0 (pieces cs) cs.length s' := by
  obtain ⟨s', hrun, hdone⟩ := IsLine.splitLoop (s := Split.start f toks) h line hfuel
  refine ⟨s', ?_, hdone⟩
  rw [Kshell.kshSplitLine, if_neg (by omega), hrun]
  rfl

theorem length_pieces (cs : List (BitVec 8)) :
    (pieces cs).length = (words cs).length + if cs.head? = some space then 1 else 0 := by
  rw [pieces]
  split
  · rfl
  · rfl

theorem IsLine.inBounds_iff (h : IsLine f cs) (hline : line ≠ 0) (htokens : tokens ≠ 0) :
    InBounds line tokens (Split.start f toks) cs ↔ (pieces cs).length < cmdMaxParts := by
  constructor
  · intro hbounds
    obtain ⟨s', hrun, _⟩ := h.kshSplitLine toks hline htokens (Nat.le_refl _)
    obtain ⟨r, s'', hrun', htok, _⟩ := hbounds _ (Nat.le_refl _)
    rw [hrun, Option.some.injEq, Prod.mk.injEq] at hrun'
    obtain ⟨_, rfl⟩ := hrun'
    exact htok _ (List.mem_append_right _ List.mem_cons_self)
  · intro hlt fuel hfuel
    obtain ⟨s', hrun, hdone⟩ := h.kshSplitLine toks hline htokens hfuel
    refine ⟨_, _, hrun, fun i hi => ?_, fun i hi => ?_⟩
    · rcases List.mem_append.mp hi with hi | hi
      · rcases hdone.tokensAt i hi with hi | hi
        · exact absurd hi List.not_mem_nil
        · omega
      · rw [List.mem_singleton.mp hi]
        exact hlt
    · exact (hdone.lineAt i hi).resolve_left List.not_mem_nil

theorem IsLine.tokenizes_iff (h : IsLine f cs) (hline : line ≠ 0) (htokens : tokens ≠ 0) :
    Tokenizes line tokens (Split.start f toks) cs ↔ cs.head? ≠ some space := by
  constructor
  · intro htoken hfirst
    obtain ⟨s', hrun, _⟩ := h.kshSplitLine toks hline htokens (Nat.le_refl _)
    obtain ⟨s'', hrun', _⟩ := htoken _ (Nat.le_refl _)
    rw [hrun, Option.some.injEq, Prod.mk.injEq, length_pieces, if_pos hfirst] at hrun'
    omega
  · intro hfirst fuel hfuel
    obtain ⟨s', hrun, hdone⟩ := h.kshSplitLine toks hline htokens hfuel
    have hpieces : pieces cs = words cs := if_neg hfirst
    rw [hpieces] at hrun hdone
    refine ⟨_, hrun, fun k hk => ?_, Function.update_self ..⟩
    obtain ⟨q, hq, hat⟩ := hdone.tokens k hk
    rw [Nat.zero_add] at hq
    refine ⟨q, ?_, hat⟩
    exact (Function.update_of_ne (Nat.ne_of_lt hk) ..).trans hq

end

/-- `ksh_split_line` stays in its arrays exactly if the words of the line, and a space at
its front, leave room for the null pointer. -/
theorem kshSplitLine_inBounds_iff {line tokens : Nat} {f : Nat → BitVec 8} {cs : List (BitVec 8)}
    (h : IsLine f cs) (hline : line ≠ 0) (htokens : tokens ≠ 0) (toks : Nat → Nat) :
    InBounds line tokens (Split.start f toks) cs ↔
      (words cs).length + (if cs.head? = some space then 1 else 0) < cmdMaxParts := by
  rw [h.inBounds_iff hline htokens, length_pieces]

/-- `ksh_split_line` finds the words of a line exactly if it does not begin with a
space. -/
theorem kshSplitLine_tokenizes_iff {line tokens : Nat} {f : Nat → BitVec 8} {cs : List (BitVec 8)}
    (h : IsLine f cs) (_hwords : (words cs).length < cmdMaxParts) (hline : line ≠ 0)
    (htokens : tokens ≠ 0) (toks : Nat → Nat) :
    Tokenizes line tokens (Split.start f toks) cs ↔ cs.head? ≠ some space :=
  h.tokenizes_iff hline htokens

/-! ## Calls on given lines -/

/-- A buffer with the line `cs`. -/
def buffer (cs : List (BitVec 8)) : Nat → BitVec 8 := fun i => cs.getD i 0

theorem at_of_getD {f : Nat → BitVec 8} {cs : List (BitVec 8)} {p : Nat}
    (h : ∀ i, f (p + i) = cs.getD i 0) : At f p (cs ++ [0]) := by
  induction cs generalizing p with
  | nil => exact ⟨h 0, trivial⟩
  | cons c cs ih =>
      refine ⟨h 0, ih fun i => ?_⟩
      rw [show p + 1 + i = p + (i + 1) by omega, h (i + 1), List.getD_cons_succ]

theorem isLine_buffer {cs : List (BitVec 8)} (hchar : ∀ c ∈ cs, c ≠ 0) (hshort : cs.length < cmdMaxLen) :
    IsLine (buffer cs) cs :=
  ⟨at_of_getD fun i => by rw [Nat.zero_add, buffer], hchar, hshort⟩

/-- `n` words of one letter. -/
def letters (n : Nat) : List (BitVec 8) := (List.replicate n [0x61, space]).flatten

theorem isLine_letters {n : Nat} (hn : n ≤ 32) : IsLine (buffer (letters n)) (letters n) := by
  refine isLine_buffer (fun c hc => ?_) ?_
  · obtain ⟨w, hw, hc⟩ := List.mem_flatten.mp hc
    rw [List.eq_of_mem_replicate hw] at hc
    rcases List.mem_pair.mp hc with rfl | rfl <;> decide
  · rw [letters, List.length_flatten, List.map_replicate, List.sum_replicate_nat]
    exact Nat.lt_of_le_of_lt (Nat.mul_le_mul_right _ hn) (by decide)

theorem kshSplitLine_inBounds_letters :
    InBounds 4096 8192 (Split.start (buffer (letters 31)) fun _ => 0) (letters 31) :=
  (kshSplitLine_inBounds_iff (isLine_letters (by decide)) (by decide) (by decide) _).mpr
    (by decide +kernel)

/-- With 32 words the null pointer is stored behind the array. -/
theorem not_inBounds_letters : IsLine (buffer (letters 32)) (letters 32) ∧
    ¬ InBounds 4096 8192 (Split.start (buffer (letters 32)) fun _ => 0) (letters 32) := by
  have hline := isLine_letters (Nat.le_refl 32)
  refine ⟨hline, fun h => ?_⟩
  have hlt := (hline.inBounds_iff (by decide) (by decide)).mp h
  exact absurd hlt (by decide +kernel)

theorem kshSplitLine_tokenizes_letters : (words (letters 2)) = [[0x61], [0x61]] ∧
    Tokenizes 4096 8192 (Split.start (buffer (letters 2)) fun _ => 0) (letters 2) :=
  ⟨by decide +kernel, (kshSplitLine_tokenizes_iff (isLine_letters (by decide)) (by decide +kernel)
    (by decide) (by decide) _).mpr (by decide +kernel)⟩

/-- A line of one word behind a space: two tokens are returned. -/
theorem not_tokenizes_space : IsLine (buffer [space, 0x61]) [space, 0x61] ∧
    words [space, 0x61] = [[0x61]] ∧
    (kshSplitLine 4096 8192 (Split.start (buffer [space, 0x61]) fun _ => 0) 4).map (·.1) = some 2 ∧
    ¬ Tokenizes 4096 8192 (Split.start (buffer [space, 0x61]) fun _ => 0) [space, 0x61] := by
  have hline : IsLine (buffer [space, 0x61]) [space, 0x61] := isLine_buffer (by decide) (by decide)
  refine ⟨hline, by decide +kernel, by decide +kernel, fun h => ?_⟩
  exact (hline.tokenizes_iff (by decide) (by decide)).mp h rfl

end Kshell
end GuideOS
