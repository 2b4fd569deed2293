import GuideOS.Lib.CStr
import GuideOS.Lib.Tokens
import GuideOS.Util.Str
import Mathlib.Data.List.GetD

/-!
# Splitting a string into words

`strtok` of `util/string.c`.  The static variables `copy` and `i` keep the string and the
position between the calls.  Positions are an `int`, in the string and in the delimiters:
the program has no meaning where one would leave its range.  The loops take fuel.
-/

namespace GuideOS
namespace Str

open Lib

/-- Memory, and the static variables of `strtok`. -/
structure Strtok where
  mem : Bytes
  copy : Nat
  i : Int

/-- `i++` on an `int`: past the largest one it is undefined. -/
def incr (i : Int) : Option Int := if i < 2 ^ 31 - 1 then some (i + 1) else none

/-- `&p[i]` -/
def cell (p : Nat) (i : Int) : Nat := (((p : Int) + i) % 2 ^ 64).toNat

/-- `copy[i]` -/
def Strtok.char (s : Strtok) : BitVec 8 := s.mem (cell s.copy s.i)

/-- `while (delims[j])`: the state when it returns from the call, or else `blanks`. -/
def delimLoop (delims : Nat) (s : Strtok) (wordFound j : Int) (blanks : Bool) :
    Nat → Option (Strtok ⊕ Bool)
  | 0 => none
  | fuel + 1 =>
      if s.mem (cell delims j) ≠ 0 then
        if s.char = s.mem (cell delims j) then
          if 0 ≤ wordFound then
            (incr s.i).map fun i => .inl { s with mem := Function.update s.mem (cell s.copy s.i) 0, i := i }
          else (incr j).bind fun j => delimLoop delims s wordFound j true fuel
        else (incr j).bind fun j => delimLoop delims s wordFound j blanks fuel
      else some (.inr blanks)

/-- `while (copy[i])` and what follows it.  `j` and `blanks` are 0 at the top of the loop. -/
def wordLoop (delims : Nat) (s : Strtok) (wordFound : Int) : Nat → Option (Nat × Strtok)
  | 0 => none
  | fuel + 1 =>
      if s.char ≠ 0 then
        match delimLoop delims s wordFound 0 false fuel with
        | none => none
        | some (.inl s) => some (cell s.copy wordFound, s)
        | some (.inr blanks) =>
            let wordFound := if wordFound = -1 ∧ blanks = false then s.i else wordFound
            (incr s.i).bind fun i => wordLoop delims { s with i := i } wordFound fuel
      else if wordFound = -1 then some (0, s)
      else some (cell s.copy wordFound, s)

/-- The result is the pointer returned, with the state after the call. -/
def strtok (base delims : Nat) (s : Strtok) (fuel : Nat) : Option (Nat × Strtok) :=
  let s := if base ≠ 0 then { s with i := 0, copy := base } else s
  wordLoop delims s (-1) fuel

/-- The call returns `r`, with enough fuel. -/
def Returns (base delims : Nat) (s : Strtok) (r : Nat × Strtok) : Prop :=
  ∃ n, ∀ fuel, n ≤ fuel → strtok base delims s fuel = some r

/-! ## Calls on one string -/

/-- The delimiters and the result of a call. -/
structure Call where
  delims : List (BitVec 8)
  ret : Nat

/-- `strtok(base, d0)`, then `strtok(0, d1)` and so on, while the rest of memory changes at
will. -/
inductive Session (base : Nat) (cs : List (BitVec 8)) : List Call → Strtok → Prop
  | first {s s' : Strtok} {d r : Nat} {ds : List (BitVec 8)} (hs : CStr s.mem base cs) (hd : d < 2 ^ 64)
      (hds : CStr s.mem d ds) (hrun : Returns base d s (r, s')) : Session base cs [⟨ds, r⟩] s'
  | next {calls : List Call} {s s' : Strtok} {d r : Nat} {ds : List (BitVec 8)} (h : Session base cs calls s)
      (hd : d < 2 ^ 64) (hds : CStr s.mem d ds) (hrun : Returns 0 d s (r, s')) :
      Session base cs (calls ++ [⟨ds, r⟩]) s'
  | other {calls : List Call} {s : Strtok} (h : Session base cs calls s) (a : Nat) (v : BitVec 8)
      (ha : a ∉ span base (cs.length + 1)) : Session base cs calls { s with mem := Function.update s.mem a v }

/-- The words that the calls should find. -/
def found (cs : List (BitVec 8)) (calls : List Call) : List Token := tokens cs 0 (calls.map Call.delims)

/-- The position that the calls should leave. -/
def reached (cs : List (BitVec 8)) (calls : List Call) : Nat := posAfter cs 0 (calls.map Call.delims)

/-- A word is returned as a pointer, and an empty one as null. -/
def wordPtr (base : Nat) (w : Token) : Nat := if w.start = w.stop then 0 else (base + w.start) % 2 ^ 64

/-- The calls have enumerated the words of `cs`. -/
structure Enumerated (base : Nat) (cs : List (BitVec 8)) (calls : List Call) (s : Strtok) : Prop where
  rets : calls.map Call.ret = (found cs calls).map (wordPtr base)
  texts : ∀ w ∈ found cs calls, w.start ≠ w.stop →
    CStr s.mem ((base + w.start) % 2 ^ 64) ((cs.drop w.start).take (w.stop - w.start))
  bytes : ∀ k ≤ cs.length, s.mem ((base + k) % 2 ^ 64) =
    if ∃ w ∈ found cs calls, w.start ≠ w.stop ∧ w.stop = k then 0 else cs.getD k 0
  copy : s.copy = base
  pos : s.i = reached cs calls
  pos_le : reached cs calls ≤ cs.length
  /-- once the string is scanned every call returns null -/
  scanned : ∀ u v, calls = u ++ v → reached cs u = cs.length → ∀ c ∈ v, c.ret = 0

/-! ## The loops -/

section

variable {s : Strtok} {delims pos : Nat} {wordFound : Int} {ds rest cs : List (BitVec 8)}
  {fuel : Nat}

theorem cell_natCast (p k : Nat) : cell p k = (p + k) % 2 ^ 64 := by
  rw [cell]
  omega

/-- Below the length of a string that an `int` can index, the position stays in range. -/
theorem incr_natCast {k : Nat} (hk : k + 1 < 2 ^ 31) : incr k = some ((k + 1 : Nat) : Int) := by
  rw [incr, if_pos (by omega)]
  rfl

/-- In a word the loop returns at a delimiter, and otherwise it tells if there was one. -/
theorem delimLoop_eq {k : Nat} (blanks : Bool) {i : Int} (hi : incr s.i = some i) (hk : k + ds.length < 2 ^ 31)
    (hds : CStr s.mem ((delims + k) % 2 ^ 64) ds) (hfuel : ds.length < fuel) :
    delimLoop delims s wordFound k blanks fuel =
      some (if 0 ≤ wordFound ∧ s.char ∈ ds then
        .inl { s with mem := Function.update s.mem (cell s.copy s.i) 0, i := i }
      else .inr (blanks || decide (s.char ∈ ds))) := by
  induction ds generalizing k blanks fuel with
  | nil =>
      obtain ⟨fuel, rfl⟩ := Nat.exists_eq_succ_of_ne_zero (Nat.ne_of_gt hfuel)
      have hnul : s.mem (cell delims k) = 0 := by
        rw [cell_natCast]
        exact hds
      rw [delimLoop, hnul, if_neg (not_not.mpr rfl), if_neg fun h => List.not_mem_nil h.2,
        decide_eq_false List.not_mem_nil, Bool.or_false]
  | cons d ds ih =>
      rw [List.length_cons] at hk hfuel
      obtain ⟨fuel, rfl⟩ := Nat.exists_eq_succ_of_ne_zero (show fuel ≠ 0 by omega)
      obtain ⟨hd, hne, hrest⟩ := hds
      rw [← cell_natCast] at hd
      have hnext : CStr s.mem ((delims + (k + 1)) % 2 ^ 64) ds := by
        rwa [Nat.mod_add_mod, Nat.add_assoc] at hrest
      have hstep := incr_natCast (show k + 1 < 2 ^ 31 by omega)
      have hrec := fun b => ih b (show (k + 1) + ds.length < 2 ^ 31 by omega) hnext (Nat.lt_of_succ_lt_succ hfuel)
      rw [delimLoop, hd, if_pos hne, hstep, hi]
      simp only [Option.bind_some, Option.map_some]
      by_cases hchar : s.char = d
      · have hmem : s.char ∈ d :: ds := List.mem_cons.mpr (Or.inl hchar)
        rw [if_pos hchar, decide_eq_true hmem, Bool.or_true]
        by_cases hword : 0 ≤ wordFound
        · rw [if_pos hword, if_pos ⟨hword, hmem⟩]
        · rw [if_neg hword, hrec, if_neg fun h => hword h.1, if_neg fun h => hword h.1, Bool.true_or]
      · rw [if_neg hchar, hrec]
        simp only [List.mem_cons, hchar, false_or]

/-- The state after a word that ends at `stop`. -/
def stopped (cs : List (BitVec 8)) (s : Strtok) (stop : Nat) : Strtok :=
  { s with
    mem := Function.update s.mem ((s.copy + stop) % 2 ^ 64) 0
    i := ((min (stop + 1) cs.length : Nat) : Int) }

/-- The next character is at `pos`, and `rest` is what follows. -/
structure At (cs rest : List (BitVec 8)) (pos : Nat) (s : Strtok) : Prop where
  i : s.i = pos
  le : pos ≤ cs.length
  drop : cs.drop pos = rest
  rest : CStr s.mem ((s.copy + pos) % 2 ^ 64) rest

theorem At.char_nil (h : At cs [] pos s) : s.char = 0 := by
  rw [Strtok.char, h.i, cell_natCast]
  exact h.rest

theorem At.char_cons {c : BitVec 8} (h : At cs (c :: rest) pos s) : s.char = c := by
  rw [Strtok.char, h.i, cell_natCast]
  exact h.rest.1

theorem At.lt {c : BitVec 8} (h : At cs (c :: rest) pos s) : pos < cs.length := by
  have hlen := congrArg List.length h.drop
  rw [List.length_drop, List.length_cons] at hlen
  omega

/-- The position moves on. -/
theorem At.incr {c : BitVec 8} (h : At cs (c :: rest) pos s) (hcs : cs.length < 2 ^ 31) :
    Str.incr s.i = some ((pos + 1 : Nat) : Int) := by
  have hlt := h.lt
  rw [h.i]
  exact incr_natCast (by omega)

theorem At.next {c : BitVec 8} (h : At cs (c :: rest) pos s) :
    At cs rest (pos + 1) { s with i := ((pos + 1 : Nat) : Int) } where
  i := rfl
  le := h.lt
  drop := drop_succ_of_drop h.drop
  rest := by
    have hnext := h.rest.2.2
    rwa [Nat.mod_add_mod, Nat.add_assoc] at hnext

/-- At the end of the string there is nothing to overwrite. -/
theorem At.stopped_end (h : At cs [] pos s) : stopped cs s pos = s := by
  have hend : pos = cs.length := Nat.le_antisymm h.le (List.drop_eq_nil_iff.mp h.drop)
  have hmem : Function.update s.mem ((s.copy + pos) % 2 ^ 64) 0 = s.mem := by
    rw [← show s.mem ((s.copy + pos) % 2 ^ 64) = 0 from h.rest]
    exact Function.update_eq_self ..
  rw [stopped, hmem, hend, Nat.min_eq_right (Nat.le_succ _), ← hend, ← h.i]

theorem At.stopped_here {c : BitVec 8} (h : At cs (c :: rest) pos s) :
    { s with mem := Function.update s.mem (cell s.copy s.i) 0, i := ((pos + 1 : Nat) : Int) } = stopped cs s pos := by
  rw [stopped, h.i, cell_natCast, Nat.min_eq_left h.lt]

/-- The scan of the delimiters, at one character of the string. -/
theorem At.delimLoop {c : BitVec 8} (h : At cs (c :: rest) pos s) (hcs : cs.length < 2 ^ 31)
    (hdelims : delims < 2 ^ 64) (hds : CStr s.mem delims ds) (hlen : ds.length < 2 ^ 31) (wordFound : Int)
    (hfuel : ds.length < fuel) :
    Str.delimLoop delims s wordFound 0 false fuel =
      some (if 0 ≤ wordFound ∧ c ∈ ds then .inl (stopped cs s pos) else .inr (decide (c ∈ ds))) := by
  have hstart : CStr s.mem ((delims + 0) % 2 ^ 64) ds := by rwa [Nat.add_zero, Nat.mod_eq_of_lt hdelims]
  have hloop : Str.delimLoop delims s wordFound (0 : Nat) false fuel = _ :=
    delimLoop_eq false (h.incr hcs) (by omega) hstart hfuel
  rwa [h.char_cons, h.stopped_here, Bool.false_or] at hloop

theorem wordLoop_in_word (hword : 0 ≤ wordFound) (h : At cs rest pos s) (hcs : cs.length < 2 ^ 31)
    (hdelims : delims < 2 ^ 64) (hds : CStr s.mem delims ds) (hlen : ds.length < 2 ^ 31)
    (hfuel : rest.length + ds.length + 1 < fuel) :
    wordLoop delims s wordFound fuel = some (cell s.copy wordFound, stopped cs s (tokenStop cs pos ds)) := by
  have hne : wordFound ≠ -1 := by
    rintro rfl
    exact absurd hword (by decide)
  induction rest generalizing s pos fuel with
  | nil =>
      obtain ⟨fuel, rfl⟩ := Nat.exists_eq_succ_of_ne_zero (Nat.ne_of_gt (Nat.zero_lt_of_lt hfuel))
      rw [wordLoop, h.char_nil, if_neg (not_not.mpr rfl), if_neg hne, tokenStop_end h.drop, h.stopped_end]
  | cons c rest ih =>
      rw [List.length_cons] at hfuel
      obtain ⟨fuel, rfl⟩ := Nat.exists_eq_succ_of_ne_zero (show fuel ≠ 0 by omega)
      have hchar := h.char_cons
      have hdelim := h.delimLoop hcs hdelims hds hlen wordFound (show ds.length < fuel by omega)
      rw [wordLoop, hchar, if_pos h.rest.2.1, hdelim]
      by_cases hc : c ∈ ds
      · rw [tokenStop_of_mem h.drop hc, if_pos ⟨hword, hc⟩]
        rfl
      · rw [tokenStop_of_notMem h.drop hc, if_neg fun hboth => hc hboth.2]
        simp only [hne, false_and, if_false, h.incr hcs, Option.bind_some]
        exact ih h.next hds (by omega)

theorem wordLoop_before_word (h : At cs rest pos s) (hcs : cs.length < 2 ^ 31)
    (hdelims : delims < 2 ^ 64) (hds : CStr s.mem delims ds) (hlen : ds.length < 2 ^ 31)
    (hfuel : rest.length + ds.length + 1 < fuel) :
    wordLoop delims s (-1) fuel =
      some (wordPtr s.copy (nextToken cs pos ds), stopped cs s (nextToken cs pos ds).stop) := by
  induction rest generalizing s pos fuel with
  | nil =>
      obtain ⟨fuel, rfl⟩ := Nat.exists_eq_succ_of_ne_zero (Nat.ne_of_gt (Nat.zero_lt_of_lt hfuel))
      rw [wordLoop, h.char_nil, if_neg (not_not.mpr rfl), if_pos rfl, nextToken_end h.drop, wordPtr, if_pos rfl,
        h.stopped_end]
  | cons c rest ih =>
      rw [List.length_cons] at hfuel
      obtain ⟨fuel, rfl⟩ := Nat.exists_eq_succ_of_ne_zero (show fuel ≠ 0 by omega)
      have hchar := h.char_cons
      have hdelim := h.delimLoop hcs hdelims hds hlen (-1) (show ds.length < fuel by omega)
      rw [if_neg fun hword => absurd hword.1 (by decide)] at hdelim
      rw [wordLoop, hchar, if_pos h.rest.2.1, hdelim]
      by_cases hc : c ∈ ds
      · rw [nextToken_of_mem h.drop hc]
        simp only [hc, decide_true, Bool.true_eq_false, and_false, if_false, h.incr hcs, Option.bind_some]
        exact ih h.next hds (by omega)
      · -- The word begins here.
        have hword : 0 ≤ s.i := by
          rw [h.i]
          exact Int.natCast_nonneg _
        have hstop := (tokenStop_bounds h.lt ds).1
        rw [nextToken_of_notMem h.drop hc, wordPtr, if_neg (Nat.ne_of_lt hstop)]
        simp only [hc, decide_false, true_and, if_true, h.incr hcs, Option.bind_some]
        rw [wordLoop_in_word hword h.next hcs hdelims hds hlen (by omega), h.i, cell_natCast]
        rfl

/-- The rest of the string is untouched. -/
theorem At.stopped (h : At cs rest pos s) (hcs : cs.length < 2 ^ 31) {stop : Nat} (hle : pos ≤ stop)
    (hend : stop ≤ cs.length) :
    At cs (cs.drop (min (stop + 1) cs.length)) (min (stop + 1) cs.length) (stopped cs s stop) where
  i := rfl
  le := Nat.min_le_right ..
  drop := rfl
  rest := by
    have hhere := h.rest
    rw [← h.drop] at hhere
    have hlast := h.le
    have hrest := hhere.later (show pos ≤ min (stop + 1) cs.length by omega) (Nat.min_le_right ..)
    refine hrest.store_zero (Nat.mod_lt _ (Nat.two_pow_pos 64)) fun i hi => ?_
    rw [List.length_drop] at hi
    omega

end

/-! ## Sessions -/

/-- `Enumerated`, with what is left of the string. -/
structure Progress (base : Nat) (cs : List (BitVec 8)) (calls : List Call) (s : Strtok) : Prop where
  rets : calls.map Call.ret = (found cs calls).map (wordPtr base)
  texts : ∀ w ∈ found cs calls, w.start ≠ w.stop →
    CStr s.mem ((base + w.start) % 2 ^ 64) ((cs.drop w.start).take (w.stop - w.start))
  bytes : ∀ k ≤ cs.length, s.mem ((base + k) % 2 ^ 64) =
    if ∃ w ∈ found cs calls, w.start ≠ w.stop ∧ w.stop = k then 0 else cs.getD k 0
  copy : s.copy = base
  here : At cs (cs.drop (reached cs calls)) (reached cs calls) s

section

variable {base delims n : Nat} {s s' : Strtok} {cs ds : List (BitVec 8)} {calls : List Call} {r r' : Nat × Strtok}

theorem Returns.unique (h : Returns base delims s r) (h' : Returns base delims s r') : r = r' := by
  obtain ⟨n, hn⟩ := h
  obtain ⟨n', hn'⟩ := h'
  have heq := hn (max n n') (Nat.le_max_left ..)
  rw [hn' (max n n') (Nat.le_max_right ..)] at heq
  exact (Option.some.inj heq).symm

theorem found_snoc (cs : List (BitVec 8)) (calls : List Call) (c : Call) :
    found cs (calls ++ [c]) = found cs calls ++ [nextToken cs (reached cs calls) c.delims] := by
  rw [found, List.map_append, tokens_append]
  rfl

theorem reached_snoc (cs : List (BitVec 8)) (calls : List Call) (c : Call) :
    reached cs (calls ++ [c]) = min ((nextToken cs (reached cs calls) c.delims).stop + 1) cs.length := by
  rw [reached, List.map_append, posAfter_append]
  rfl

theorem reached_le (cs : List (BitVec 8)) (calls : List Call) : reached cs calls ≤ cs.length :=
  posAfter_le (Nat.zero_le _) _

theorem Progress.start (hbase : base < 2 ^ 64) (hs : CStr s.mem base cs) :
    Progress base cs [] { s with i := 0, copy := base } where
  rets := rfl
  texts w hw := absurd hw List.not_mem_nil
  bytes k hk := by
    rw [if_neg fun ⟨w, hw, _⟩ => absurd hw List.not_mem_nil]
    rcases Nat.eq_or_lt_of_le hk with rfl | hlt
    · rw [List.getD_eq_default _ _ (Nat.le_refl _)]
      exact hs.nul hbase
    · rw [List.getD_eq_getElem _ _ hlt]
      exact hs.char hbase hlt
  copy := rfl
  here := by
    refine ⟨rfl, Nat.zero_le _, rfl, ?_⟩
    show CStr s.mem ((base + 0) % 2 ^ 64) cs
    rwa [Nat.add_zero, Nat.mod_eq_of_lt hbase]

/-- One call takes the next word. -/
theorem Progress.call (h : Progress base cs calls s) (hcs : cs.length < 2 ^ 31) (ds : List (BitVec 8)) :
    Progress base cs (calls ++ [⟨ds, wordPtr base (nextToken cs (reached cs calls) ds)⟩])
      (stopped cs s (nextToken cs (reached cs calls) ds).stop) := by
  obtain ⟨hstart, hstop, hend, hempty⟩ := nextToken_bounds (reached_le cs calls) ds
  have hbase := h.copy
  generalize hw : nextToken cs (reached cs calls) ds = w at hstart hstop hend hempty
  have hfound := found_snoc cs calls ⟨ds, wordPtr base w⟩
  have hreached := reached_snoc cs calls ⟨ds, wordPtr base w⟩
  simp only [hw] at hfound hreached
  refine ⟨?_, fun w' hw' hne => ?_, fun k hk => ?_, hbase, ?_⟩
  · rw [hfound, List.map_append, List.map_append, h.rets]
    rfl
  · show CStr (Function.update s.mem ((s.copy + w.stop) % 2 ^ 64) 0) _ _
    rw [hfound, List.mem_append, List.mem_singleton] at hw'
    rw [hbase]
    rcases hw' with hold | rfl
    · have hle := tokens_bounds (Nat.zero_le _) _ w' hold
      refine (h.texts w' hold hne).store_zero (Nat.mod_lt _ (Nat.two_pow_pos 64)) fun i hi => ?_
      rw [List.length_take, List.length_drop] at hi
      have hlt : w'.start + i < w.stop := by
        have hlast : w'.stop ≤ reached cs calls := hle.2
        omega
      omega
    · have hlen : w'.stop - w'.start ≤ (cs.drop w'.start).length := by
        rw [List.length_drop]
        omega
      have hword := h.here.rest.later hstart (Nat.le_trans hstop hend)
      have hcut := hword.cut (Nat.mod_lt _ (Nat.two_pow_pos 64)) hlen
      rwa [Nat.mod_add_mod, Nat.add_assoc, Nat.add_sub_cancel' hstop, hbase] at hcut
  · show Function.update s.mem ((s.copy + w.stop) % 2 ^ 64) 0 ((base + k) % 2 ^ 64) = _
    rw [hbase, hfound]
    by_cases hks : k = w.stop
    · subst hks
      rw [Function.update_self]
      by_cases hne : w.start = w.stop
      · rw [hempty hne, List.getD_eq_default _ _ (Nat.le_refl _), ite_self]
      · rw [if_pos ⟨w, List.mem_append_right _ List.mem_cons_self, hne, rfl⟩]
    · rw [Function.update_of_ne (by omega), h.bytes k hk]
      refine if_congr ?_ rfl rfl
      simp only [List.mem_append, List.mem_singleton, or_and_right, exists_or, exists_eq_left]
      exact ⟨Or.inl, fun hor => hor.resolve_right fun hnew => hks hnew.2.symm⟩
  · rw [hreached]
    exact h.here.stopped hcs (Nat.le_trans hstart hstop) hend

/-- A store outside the string changes nothing. -/
theorem Progress.other (h : Progress base cs calls s) {a : Nat} (v : BitVec 8)
    (ha : a ∉ span base (cs.length + 1)) : Progress base cs calls { s with mem := Function.update s.mem a v } := by
  have hsame : ∀ k ≤ cs.length, Function.update s.mem a v ((base + k) % 2 ^ 64) = s.mem ((base + k) % 2 ^ 64) :=
    fun k hk => Function.update_of_ne (fun e => ha ⟨k, by omega, e.symm⟩) ..
  have hpart : ∀ {k : Nat} {ds : List (BitVec 8)}, k + ds.length ≤ cs.length →
      CStr s.mem ((base + k) % 2 ^ 64) ds → CStr (Function.update s.mem a v) ((base + k) % 2 ^ 64) ds := by
    intro k ds hk hstr
    refine hstr.congr (Nat.mod_lt _ (Nat.two_pow_pos 64)) fun i hi => ?_
    rw [show ((base + k) % 2 ^ 64 + i) % 2 ^ 64 = (base + (k + i)) % 2 ^ 64 by omega]
    exact hsame (k + i) (by omega)
  have hle := reached_le cs calls
  refine ⟨h.rets, fun w hw hne => hpart ?_ (h.texts w hw hne), fun k hk => (hsame k hk).trans (h.bytes k hk),
    h.copy, ⟨h.here.i, h.here.le, rfl, ?_⟩⟩
  · have hw' : w.start ≤ w.stop ∧ w.stop ≤ reached cs calls := tokens_bounds (Nat.zero_le _) _ w hw
    rw [List.length_take, List.length_drop]
    omega
  · have hrest := h.here.rest
    show CStr (Function.update s.mem a v) ((s.copy + reached cs calls) % 2 ^ 64) _
    rw [h.copy] at hrest ⊢
    refine hpart ?_ hrest
    rw [List.length_drop]
    omega

/-- Every call returns, with the next word. -/
theorem Progress.returns (h : Progress base cs calls s) (hcs : cs.length < 2 ^ 31) (hd : delims < 2 ^ 64)
    (hds : CStr s.mem delims ds) (hlen : ds.length < 2 ^ 31) :
    Returns 0 delims s (wordPtr base (nextToken cs (reached cs calls) ds),
      stopped cs s (nextToken cs (reached cs calls) ds).stop) := by
  refine ⟨cs.length + ds.length + 2, fun fuel hfuel => ?_⟩
  have hrest : (cs.drop (reached cs calls)).length ≤ cs.length := by
    rw [List.length_drop]
    exact Nat.sub_le ..
  rw [strtok, if_neg (not_not.mpr rfl)]
  have hrun := wordLoop_before_word h.here hcs hd hds hlen (show _ < fuel by omega)
  rwa [h.copy] at hrun

theorem returns_base (hbase : base ≠ 0) (delims : Nat) (s : Strtok) (r : Nat × Strtok) :
    Returns base delims s r ↔ Returns 0 delims { s with i := 0, copy := base } r := by
  have hsame : ∀ fuel, strtok base delims s fuel = strtok 0 delims { s with i := 0, copy := base } fuel := by
    intro fuel
    rw [strtok, strtok, if_pos hbase, if_neg (not_not.mpr rfl)]
  simp only [Returns, hsame]

theorem Session.progress (h : Session base cs calls s) (hbase : base ≠ 0) (hlt : base < 2 ^ 64)
    (hcs : cs.length < 2 ^ 31) (hds : ∀ c ∈ calls, c.delims.length < 2 ^ 31) : Progress base cs calls s := by
  have hstep : ∀ {calls : List Call} {s s' : Strtok} {d r : Nat} {ds : List (BitVec 8)}, Progress base cs calls s →
      d < 2 ^ 64 → CStr s.mem d ds → ds.length < 2 ^ 31 → Returns 0 d s (r, s') →
      Progress base cs (calls ++ [⟨ds, r⟩]) s' := by
    intro calls s s' d r ds hprog hd hstr hlen hrun
    have heq := hrun.unique (hprog.returns hcs hd hstr hlen)
    rw [Prod.mk.injEq] at heq
    rw [heq.1, heq.2]
    exact hprog.call hcs ds
  induction h with
  | first hs hd hstr hrun =>
      exact hstep (.start hlt hs) hd hstr (hds _ List.mem_cons_self) ((returns_base hbase _ _ _).mp hrun)
  | next _ hd hstr hrun ih =>
      refine hstep (ih fun c hc => hds c (List.mem_append_left _ hc)) hd hstr ?_ hrun
      exact hds _ (List.mem_append_right _ List.mem_cons_self)
  | other _ a v ha ih => exact (ih hds).other v ha

/-- Behind the last word every call returns null. -/
theorem Progress.scanned (h : Progress base cs calls s) {u v : List Call} (huv : calls = u ++ v)
    (hend : reached cs u = cs.length) : ∀ c ∈ v, c.ret = 0 := by
  subst huv
  have hrets := h.rets
  have hsplit : found cs (u ++ v) = found cs u ++ tokens cs cs.length (v.map Call.delims) := by
    rw [found, List.map_append, tokens_append, ← hend]
    rfl
  rw [hsplit, List.map_append, List.map_append] at hrets
  have hlen : (u.map Call.ret).length = ((found cs u).map (wordPtr base)).length := by
    rw [List.length_map, List.length_map, found, length_tokens, List.length_map]
  have hv := (List.append_inj hrets hlen).2
  intro c hc
  have hmem : c.ret ∈ (tokens cs cs.length (v.map Call.delims)).map (wordPtr base) := hv ▸ List.mem_map_of_mem hc
  obtain ⟨w, hw, hret⟩ := List.mem_map.mp hmem
  rw [← hret, tokens_end cs _ w hw, wordPtr, if_pos rfl]

theorem Progress.enumerated (h : Progress base cs calls s) :
    Enumerated base cs calls s where
  rets := h.rets
  texts := h.texts
  bytes := h.bytes
  copy := h.copy
  pos := h.here.i
  pos_le := h.here.le
  scanned _ _ := h.scanned

end

/-- Every call on a string that an `int` can index returns and leaves the rest of memory
alone, and the calls enumerate the words of the string. -/
theorem strtok_enumerates {base : Nat} {cs : List (BitVec 8)} (hbase : base ≠ 0) (hlt : base < 2 ^ 64)
    (hcs : cs.length < 2 ^ 31) :
    (∀ s d ds, CStr s.mem base cs → d < 2 ^ 64 → CStr s.mem d ds → ds.length < 2 ^ 31 →
      ∃ r, Returns base d s r ∧ ∀ a ∉ span base (cs.length + 1), r.2.mem a = s.mem a) ∧
    ∀ calls s, Session base cs calls s → (∀ c ∈ calls, c.delims.length < 2 ^ 31) → Enumerated base cs calls s ∧
      ∀ d ds, d < 2 ^ 64 → CStr s.mem d ds → ds.length < 2 ^ 31 →
        ∃ r, Returns 0 d s r ∧ ∀ a ∉ span base (cs.length + 1), r.2.mem a = s.mem a := by
  have hcall : ∀ {calls : List Call} {s : Strtok}, Progress base cs calls s → ∀ d ds, d < 2 ^ 64 →
      CStr s.mem d ds → ds.length < 2 ^ 31 →
      ∃ r, Returns 0 d s r ∧ ∀ a ∉ span base (cs.length + 1), r.2.mem a = s.mem a := by
    intro calls s h d ds hd hds hlen
    refine ⟨_, h.returns hcs hd hds hlen, fun a ha => Function.update_of_ne (fun e => ha ?_) ..⟩
    have hend := (nextToken_bounds (reached_le cs calls) ds).2.2.1
    exact ⟨_, Nat.lt_succ_of_le hend, by rw [e, h.copy]⟩
  refine ⟨fun s d ds hs hd hds hlen => ?_, fun calls s h hall => ?_⟩
  · obtain ⟨r, hrun, hkept⟩ := hcall (Progress.start hlt hs) d ds hd hds hlen
    exact ⟨r, (returns_base hbase d s r).mpr hrun, hkept⟩
  · have hprog := h.progress hbase hlt hcs hall
    exact ⟨hprog.enumerated, hcall hprog⟩

/-- The string `hi, yo` at 4096, and the delimiters, a comma and a space, at 8192. -/
def greeting : Bytes := fun a =>
  if 4096 ≤ a ∧ a < 4103 then [0x68, 0x69, 0x2C, 0x20, 0x79, 0x6F].getD (a - 4096) 0
  else if 8192 ≤ a ∧ a < 8195 then [0x2C, 0x20].getD (a - 8192) 0
  else 0xFF

theorem strtok_enumerates_greeting : ∃ s, Session 4096 [0x68, 0x69, 0x2C, 0x20, 0x79, 0x6F] [⟨[0x2C, 0x20], 4096⟩] s ∧
    Enumerated 4096 [0x68, 0x69, 0x2C, 0x20, 0x79, 0x6F] [⟨[0x2C, 0x20], 4096⟩] s ∧ CStr s.mem 4096 [0x68, 0x69] ∧
    s.i = 3 := by
  have hstr : CStr greeting 4096 [0x68, 0x69, 0x2C, 0x20, 0x79, 0x6F] := by decide
  have hdelims : CStr greeting 8192 [0x2C, 0x20] := by decide
  have h := strtok_enumerates (show 4096 ≠ 0 by decide) (by decide)
    (show [0x68, 0x69, 0x2C, 0x20, 0x79, 0x6F].length < 2 ^ 31 by decide)
  obtain ⟨⟨p, s⟩, hrun, -⟩ := h.1 ⟨greeting, 0, 0⟩ 8192 _ hstr (by decide) hdelims (by decide)
  have hsession := Session.first hstr (by decide) hdelims hrun
  have henum := (h.2 _ s hsession fun c hc => by
    rw [List.mem_singleton.mp hc]
    exact show 2 < 2 ^ 31 by decide).1
  have hret : p = 4096 := (List.cons.inj henum.rets).1
  subst hret
  exact ⟨s, hsession, henum, henum.texts ⟨0, 2⟩ (by decide) (by decide), henum.pos⟩

end Str
end GuideOS
