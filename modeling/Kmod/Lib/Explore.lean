import Mathlib.Logic.Relation
import Mathlib.Data.List.Nodup

/-!
# What a depth-first search visits

A search that marks the vertices it enters and never enters a marked one adds, to
the vertices `old` that were marked before, a list `news` of further ones.
`Explored` says what such a search has achieved when it is over; it composes along
the control flow of a search (one start after the other, a vertex before its
successors) and determines the new vertices: they are those that can be reached
from a start without entering an old one (`Explored.mem_iff`).
-/

namespace Kmod.Explore

open Relation

variable {V : Type*} {r : V → V → Prop}

/-- The edges into vertices that are not old. -/
def Outside (r : V → V → Prop) (old : V → Prop) : V → V → Prop := fun a b => r a b ∧ ¬ old b

/-- Searching from `starts`, with `old` marked, has entered exactly `news`. -/
structure Explored (r : V → V → Prop) (old : V → Prop) (starts news : List V) : Prop where
  nodup : news.Nodup
  fresh : ∀ v ∈ news, ¬ old v
  /-- Nothing is entered without a way to it. -/
  reached : ∀ v ∈ news, ∃ s ∈ starts, ¬ old s ∧ ReflTransGen (Outside r old) s v
  /-- The search is over: nothing is left to enter. -/
  start : ∀ s ∈ starts, old s ∨ s ∈ news
  closed : ∀ v ∈ news, ∀ w, r v w → old w ∨ w ∈ news

variable {old old' : V → Prop} {starts starts' news news' : List V} {m : V}

theorem explored_nil : Explored r old [] [] := by
  constructor <;> simp

theorem explored_old (h : old m) : Explored r old [m] [] := by
  constructor <;> simp [h]

theorem Explored.congr (h : Explored r old starts news) (hold : ∀ v, old' v ↔ old v) :
    Explored r old' starts news := by
  obtain rfl : old' = old := funext (fun v => propext (hold v))
  exact h

/-- **One search after the other.** -/
theorem Explored.append (h : Explored r old starts news)
    (h' : Explored r (fun v => old v ∨ v ∈ news) starts' news') :
    Explored r old (starts ++ starts') (news ++ news') where
  nodup := List.nodup_append.mpr ⟨h.nodup, h'.nodup, fun a ha b hb hab =>
    h'.fresh b hb (.inr (hab ▸ ha))⟩
  fresh := by
    intro v hv
    rcases List.mem_append.mp hv with hv | hv
    · exact h.fresh v hv
    · exact fun ho => h'.fresh v hv (.inl ho)
  reached := by
    intro v hv
    rcases List.mem_append.mp hv with hv | hv
    · obtain ⟨s, hs, hsv⟩ := h.reached v hv
      exact ⟨s, List.mem_append_left _ hs, hsv⟩
    · obtain ⟨s, hs, ho, hsv⟩ := h'.reached v hv
      -- the second search keeps off the vertices of the first, too
      refine ⟨s, List.mem_append_right _ hs, fun hos => ho (.inl hos), ?_⟩
      exact ReflTransGen.mono (fun a b hab => ⟨hab.1, fun hb => hab.2 (.inl hb)⟩) _ _ hsv
  start := by
    intro s hs
    rcases List.mem_append.mp hs with hs | hs
    · exact (h.start s hs).imp_right (List.mem_append_left _)
    · rcases h'.start s hs with (ho | hn) | hn
      · exact .inl ho
      · exact .inr (List.mem_append_left _ hn)
      · exact .inr (List.mem_append_right _ hn)
  closed := by
    intro v hv w hw
    rcases List.mem_append.mp hv with hv | hv
    · exact (h.closed v hv w hw).imp_right (List.mem_append_left _)
    · rcases h'.closed v hv w hw with (ho | hn) | hn
      · exact .inl ho
      · exact .inr (List.mem_append_left _ hn)
      · exact .inr (List.mem_append_right _ hn)

/-- **Entering a vertex**: mark it, then search from its successors. -/
theorem Explored.enter (hm : ¬ old m) (hsucc : ∀ w, r m w ↔ w ∈ starts)
    (h : Explored r (fun v => old v ∨ v = m) starts news) : Explored r old [m] (m :: news) where
  nodup := List.nodup_cons.mpr ⟨fun hmem => h.fresh m hmem (.inr rfl), h.nodup⟩
  fresh := by
    intro v hv
    rcases List.mem_cons.mp hv with rfl | hv
    · exact hm
    · exact fun ho => h.fresh v hv (.inl ho)
  reached := by
    intro v hv
    refine ⟨m, List.mem_singleton_self m, hm, ?_⟩
    rcases List.mem_cons.mp hv with rfl | hv
    · exact .refl
    · obtain ⟨s, hs, ho, hsv⟩ := h.reached v hv
      refine ReflTransGen.head ⟨(hsucc s).mpr hs, fun hos => ho (.inl hos)⟩ ?_
      exact ReflTransGen.mono (fun a b hab => ⟨hab.1, fun hb => hab.2 (.inl hb)⟩) _ _ hsv
  start := by
    intro s hs
    exact .inr (List.mem_singleton.mp hs ▸ List.mem_cons_self ..)
  closed := by
    intro v hv w hw
    -- the successors of `m` are starts, the others are closed already
    have hin : (old w ∨ w = m) ∨ w ∈ news := by
      rcases List.mem_cons.mp hv with rfl | hv
      · exact h.start w ((hsucc w).mp hw)
      · exact h.closed v hv w hw
    rcases hin with (ho | rfl) | hn
    · exact .inl ho
    · exact .inr (List.mem_cons_self ..)
    · exact .inr (List.mem_cons_of_mem _ hn)

/-- **What was entered**: all that can be reached from a start outside the old vertices. -/
theorem Explored.mem_iff (h : Explored r old starts news) {v : V} :
    v ∈ news ↔ ∃ s ∈ starts, ¬ old s ∧ ReflTransGen (Outside r old) s v := by
  refine ⟨h.reached v, ?_⟩
  rintro ⟨s, hs, ho, hsv⟩
  induction hsv with
  | refl => exact (h.start s hs).resolve_left ho
  | tail _ hstep ih => exact (h.closed _ ih _ hstep.1).resolve_left hstep.2

end Kmod.Explore
