import GuideOS.Lib.Chain

/-!
# Doubly linked chains

A doubly linked list is a chain along `next` from its head and, with the cells in
the other order, a chain along `prev` from its tail.  Edits are stated by what the
new maps do on the cells, as for single chains.
-/

namespace GuideOS
namespace Lib

variable {α : Type*} {null : α} {next next' prev prev' : α → α} {p p' q q' a : α} {l r : List α}

/-! ## First and last cell of a chain -/

theorem Chain.start_eq (h : Chain null next p l) : p = l.head?.getD null := by
  cases l with
  | nil => exact h
  | cons b l => exact h.1

theorem Chain.next_eq (h : Chain null next p (l ++ a :: r)) : next a = r.head?.getD null := by
  have hr : Chain null next (next a) r := h.suffix.2.2
  exact hr.start_eq

/-- Take a cell out of a chain, by storing its successor in its predecessor, or as
the start. -/
theorem Chain.remove (h : Chain null next p (l ++ a :: r)) (hstart : l = [] → p' = next a)
    (hlink : ∀ b, l.getLast? = some b → p' = p ∧ next' b = next a)
    (hag : ∀ c ∈ l ++ r, l.getLast? ≠ some c → next' c = next c) : Chain null next' p' (l ++ r) := by
  rcases List.eq_nil_or_concat l with rfl | ⟨l, b, rfl⟩
  · rw [hstart rfl]
    have hr : Chain null next (next a) r := h.2.2
    exact hr.congr fun c hc => hag c hc (fun e => by cases e)
  · have hnd := h.nodup
    simp only [List.concat_eq_append, List.append_assoc, List.singleton_append] at h hnd hag ⊢
    obtain ⟨hp, hb⟩ := hlink b (by simp)
    have hlast : ∀ c ∈ l ++ r, (l ++ [b]).getLast? ≠ some c := by
      intro c hc e
      obtain rfl : b = c := by simpa using e
      refine (List.nodup_cons.mp (List.nodup_middle.mp hnd)).1 ?_
      rcases List.mem_append.mp hc with hc | hc
      · exact List.mem_append_left _ hc
      · exact List.mem_append_right _ (List.mem_cons_of_mem a hc)
    rw [hp]
    refine h.unlink hb fun c hc => hag c ?_ (hlast c hc)
    rcases List.mem_append.mp hc with hc | hc
    · exact List.mem_append_left _ hc
    · exact List.mem_append_right _ (List.mem_cons_of_mem b hc)

/-! ## Both directions -/

def DChain (null : α) (next prev : α → α) (head tail : α) (l : List α) : Prop :=
  Chain null next head l ∧ Chain null prev tail l.reverse

theorem DChain.congr (h : DChain null next prev p q l) (hn : ∀ b ∈ l, next' b = next b)
    (hp : ∀ b ∈ l, prev' b = prev b) : DChain null next' prev' p q l :=
  ⟨h.1.congr hn, h.2.congr fun b hb => hp b (List.mem_reverse.mp hb)⟩

theorem DChain.nodup (h : DChain null next prev p q l) : l.Nodup := h.1.nodup

theorem DChain.ne_null (h : DChain null next prev p q l) (ha : a ∈ l) : a ≠ null := h.1.ne_null ha

theorem DChain.head_eq (h : DChain null next prev p q l) : p = l.head?.getD null := h.1.start_eq

theorem DChain.tail_eq (h : DChain null next prev p q l) : q = l.getLast?.getD null := by
  rw [h.2.start_eq, List.head?_reverse]

theorem DChain.next_eq (h : DChain null next prev p q (l ++ a :: r)) :
    next a = r.head?.getD null :=
  h.1.next_eq

theorem DChain.prev_eq (h : DChain null next prev p q (l ++ a :: r)) :
    prev a = l.getLast?.getD null := by
  have hrev : Chain null prev q (r.reverse ++ a :: l.reverse) := by simpa using h.2
  rw [hrev.next_eq, List.head?_reverse]

/-- `prev` undoes `next`. -/
theorem DChain.prev_next (h : DChain null next prev p q l) (ha : a ∈ l) (hne : next a ≠ null) :
    prev (next a) = a := by
  obtain ⟨u, v, rfl⟩ := List.append_of_mem ha
  rw [h.next_eq] at hne ⊢
  cases v with
  | nil => exact absurd rfl hne
  | cons b v =>
      have hsplit : u ++ a :: b :: v = (u ++ [a]) ++ b :: v := by simp
      rw [hsplit] at h
      simpa using h.prev_eq

/-- The list read from the other end. -/
theorem DChain.reverse (h : DChain null next prev p q l) : DChain null prev next q p l.reverse :=
  ⟨h.2, by rw [List.reverse_reverse]; exact h.1⟩

/-- `next` undoes `prev`. -/
theorem DChain.next_prev (h : DChain null next prev p q l) (ha : a ∈ l) (hne : prev a ≠ null) :
    next (prev a) = a :=
  h.reverse.prev_next (List.mem_reverse.mpr ha) hne

/-- Link a new cell behind the last one. -/
theorem DChain.concat (h : DChain null next prev p q l) (ha : a ≠ null) (hal : a ∉ l)
    (hnext : next' a = null) (hprev : prev' a = q) (hempty : l = [] → p' = a)
    (hlink : l ≠ [] → p' = p ∧ next' q = a) (hn : ∀ b ∈ l, b ≠ q → next' b = next b)
    (hp : ∀ b ∈ l, prev' b = prev b) : DChain null next' prev' p' a (l ++ [a]) := by
  refine ⟨?_, ?_⟩
  · rcases List.eq_nil_or_concat l with rfl | ⟨l, b, rfl⟩
    · exact ⟨hempty rfl, ha, hnext⟩
    · have hq : q = b := by simpa using h.tail_eq
      have hnd := h.nodup
      have hchain := h.1
      simp only [List.concat_eq_append] at hlink hn hnd hchain ⊢
      obtain ⟨hp', hqa⟩ := hlink (by simp)
      have hend : next b = null := by simpa using hchain.next_eq
      rw [hp', List.append_assoc]
      refine hchain.insertAfter ha (by rw [← hq]; exact hqa) (by rw [hnext, hend]) fun c hc => ?_
      rw [List.append_nil] at hc
      refine hn c (List.mem_append_left _ hc) ?_
      rw [hq]
      rintro rfl
      exact (List.nodup_append.mp hnd).2.2 c hc c List.mem_cons_self rfl
  · rw [List.reverse_append]
    exact h.2.push ha (fun hm => hal (List.mem_reverse.mp hm)) hprev
      fun b hb _ => hp b (List.mem_reverse.mp hb)

/-- Link a new cell in front of the first one. -/
theorem DChain.cons (h : DChain null next prev p q l) (ha : a ≠ null) (hal : a ∉ l)
    (hprev : prev' a = null) (hnext : next' a = p) (hempty : l = [] → q' = a)
    (hlink : l ≠ [] → q' = q ∧ prev' p = a) (hp : ∀ b ∈ l, b ≠ p → prev' b = prev b)
    (hn : ∀ b ∈ l, next' b = next b) : DChain null next' prev' a q' (a :: l) := by
  have hback : DChain null prev' next' q' a (l.reverse ++ [a]) := by
    refine h.reverse.concat ha (fun hm => hal (List.mem_reverse.mp hm)) hprev hnext
      (fun e => hempty (List.reverse_eq_nil_iff.mp e))
      (fun hne => hlink fun e => hne (List.reverse_eq_nil_iff.mpr e))
      (fun b hb => hp b (List.mem_reverse.mp hb)) fun b hb => hn b (List.mem_reverse.mp hb)
  rw [← List.reverse_cons] at hback
  simpa using hback.reverse

/-- Take a cell out of both directions. -/
theorem DChain.remove (h : DChain null next prev p q (l ++ a :: r))
    (hstart : l = [] → p' = next a) (hnext : ∀ b, l.getLast? = some b → p' = p ∧ next' b = next a)
    (hn : ∀ c ∈ l ++ r, l.getLast? ≠ some c → next' c = next c)
    (hend : r = [] → q' = prev a) (hprev : ∀ b, r.head? = some b → q' = q ∧ prev' b = prev a)
    (hp : ∀ c ∈ l ++ r, r.head? ≠ some c → prev' c = prev c) :
    DChain null next' prev' p' q' (l ++ r) := by
  refine ⟨h.1.remove hstart hnext hn, ?_⟩
  have hrev : Chain null prev q (r.reverse ++ a :: l.reverse) := by simpa using h.2
  rw [List.reverse_append]
  refine hrev.remove (fun e => hend (List.reverse_eq_nil_iff.mp e)) (fun b hb => hprev b ?_)
    fun c hc hb => hp c ?_ fun e => hb ?_
  · rwa [List.getLast?_reverse] at hb
  · rcases List.mem_append.mp hc with hc | hc
    · exact List.mem_append_right _ (List.mem_reverse.mp hc)
    · exact List.mem_append_left _ (List.mem_reverse.mp hc)
  · rwa [List.getLast?_reverse]

end Lib
end GuideOS
