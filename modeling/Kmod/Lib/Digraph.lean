import Mathlib.Logic.Relation
import Mathlib.Data.Set.Finite.Basic
import Mathlib.Data.Fintype.Order
import Mathlib.Data.Nat.Find
import Mathlib.Logic.Function.Iterate

/-!
# Walks and cycles in a digraph

A digraph is a relation `r` on a type of vertices; `r a b` is an edge from `a`
to `b`. A vertex is *on a cycle* when one or more edges lead from it back to it.

Three facts carry the arguments that use this file:

* a finite set without cycles is well founded along its edges, in both
  directions, so one can prove a property of every vertex from its successors
  (or from its predecessors);
* a non-empty finite set in which every vertex has a predecessor contains a
  cycle;
* a walk out of `v` that ends elsewhere has a last visit to `v`, and avoids `v`
  from there on.
-/

namespace Kmod.Digraph

open Relation

variable {V : Type*} {r : V → V → Prop}

/-- One or more edges lead from `v` back to `v`. -/
def OnCycle (r : V → V → Prop) (v : V) : Prop := TransGen r v v

/-- The edges that touch `v` at neither end. -/
def Avoid (r : V → V → Prop) (v : V) : V → V → Prop :=
  fun a b => r a b ∧ a ≠ v ∧ b ≠ v

/-- Every cycle that can be reached from `v` passes through `v`. -/
def HitsAll (r : V → V → Prop) (v : V) : Prop :=
  ∀ u, ReflTransGen r v u → ¬ OnCycle (Avoid r v) u

/-- Each of the two vertices can be reached from the other. -/
def Mutual (r : V → V → Prop) (a b : V) : Prop := ReflTransGen r a b ∧ ReflTransGen r b a

theorem Mutual.refl (a : V) : Mutual r a a := ⟨.refl, .refl⟩

theorem Mutual.symm {a b : V} (h : Mutual r a b) : Mutual r b a := ⟨h.2, h.1⟩

theorem Mutual.trans {a b c : V} (h : Mutual r a b) (h' : Mutual r b c) : Mutual r a c :=
  ⟨h.1.trans h'.1, h'.2.trans h.2⟩

/-! ## Induction along a finite acyclic set -/

/--
**Induction towards the sinks.** In a finite set with no vertex on a cycle, a
property passes from the successors of a vertex to the vertex.
-/
theorem acyclic_induction {S : Set V} (hS : S.Finite) (hac : ∀ v ∈ S, ¬ OnCycle r v)
    {P : V → Prop} (hstep : ∀ v ∈ S, (∀ w ∈ S, r v w → P w) → P v) : ∀ v ∈ S, P v := by
  have : Finite S := hS
  have hwf : WellFounded (fun a b : S => TransGen r b.1 a.1) := by
    have : IsTrans S (fun a b : S => TransGen r b.1 a.1) := ⟨fun a b c hab hbc => hbc.trans hab⟩
    have : Std.Irrefl (fun a b : S => TransGen r b.1 a.1) := ⟨fun a h => hac a.1 a.2 h⟩
    exact Finite.wellFounded_of_trans_of_irrefl _
  have key : ∀ v : S, P v.1 := by
    intro v
    induction v using hwf.induction with
    | _ v ih => exact hstep v.1 v.2 (fun w hw hvw => ih ⟨w, hw⟩ (TransGen.single hvw))
  exact fun v hv => key ⟨v, hv⟩

theorem onCycle_swap {v : V} : OnCycle (Function.swap r) v ↔ OnCycle r v := transGen_swap

/-- **Induction towards the sources.** -/
theorem acyclic_induction_pred {S : Set V} (hS : S.Finite) (hac : ∀ v ∈ S, ¬ OnCycle r v)
    {P : V → Prop} (hstep : ∀ v ∈ S, (∀ u ∈ S, r u v → P u) → P v) : ∀ v ∈ S, P v :=
  acyclic_induction (r := Function.swap r) hS (fun v hv h => hac v hv (onCycle_swap.mp h)) hstep

/-- A non-empty finite set in which every vertex has a predecessor contains a cycle. -/
theorem exists_onCycle_of_pred {S : Set V} (hS : S.Finite) {v₀ : V} (h₀ : v₀ ∈ S)
    (hpred : ∀ v ∈ S, ∃ u ∈ S, r u v) : ∃ v ∈ S, OnCycle r v := by
  by_contra hno
  have hac : ∀ v ∈ S, ¬ OnCycle r v := fun v hv hc => hno ⟨v, hv, hc⟩
  refine acyclic_induction_pred hS hac (P := fun _ => False) ?_ v₀ h₀
  intro v hv ih
  obtain ⟨u, hu, huv⟩ := hpred v hv
  exact ih u hu huv

/-! ## Walks that avoid a vertex -/

theorem avoid_le {v a b : V} (h : Avoid r v a b) : r a b := h.1

theorem reflTransGen_of_avoid {v a b : V} (h : ReflTransGen (Avoid r v) a b) :
    ReflTransGen r a b :=
  ReflTransGen.mono (fun _ _ => avoid_le) _ _ h

theorem onCycle_of_avoid {v u : V} (h : OnCycle (Avoid r v) u) : OnCycle r u :=
  TransGen.mono (fun _ _ => avoid_le) _ _ h

theorem onCycle_avoid_ne {v u : V} (h : OnCycle (Avoid r v) u) : u ≠ v := by
  obtain ⟨_, h1, _⟩ := TransGen.head'_iff.mp h
  exact h1.2.1

/-- After its last visit to `v`, a walk out of `v` avoids `v`. -/
theorem exists_avoid_walk {v u : V} (h : ReflTransGen r v u) (hne : u ≠ v) :
    ∃ x, r v x ∧ x ≠ v ∧ ReflTransGen (Avoid r v) x u := by
  induction h with
  | refl => exact absurd rfl hne
  | @tail b c _ hbc ih =>
    by_cases hb : b = v
    · subst hb
      exact ⟨c, hbc, hne, .refl⟩
    · obtain ⟨x, hvx, hx, hxb⟩ := ih hb
      exact ⟨x, hvx, hx, hxb.tail ⟨hbc, hb, hne⟩⟩

/-- A closed walk either comes back through `v` or lies wholly off `v`. -/
theorem onCycle_avoid_or_through {v u : V} (h : OnCycle r u) (hne : u ≠ v) :
    OnCycle (Avoid r v) u ∨ (ReflTransGen r u v ∧ ReflTransGen r v u) := by
  have key : ∀ w, TransGen r u w → (w ≠ v ∧ TransGen (Avoid r v) u w) ∨
      (ReflTransGen r u v ∧ ReflTransGen r v w) := by
    intro w hw
    induction hw with
    | @single w huw =>
      by_cases hwv : w = v
      · exact .inr ⟨hwv ▸ .single huw, hwv ▸ .refl⟩
      · exact .inl ⟨hwv, .single ⟨huw, hne, hwv⟩⟩
    | @tail b c hb hbc ih =>
      rcases ih with ⟨hbv, hub⟩ | ⟨huv, hvb⟩
      · by_cases hcv : c = v
        · exact .inr ⟨hcv ▸ (hb.tail hbc).to_reflTransGen, hcv ▸ .refl⟩
        · exact .inl ⟨hcv, hub.tail ⟨hbc, hbv, hcv⟩⟩
      · exact .inr ⟨huv, hvb.tail hbc⟩
  rcases key u h with ⟨_, h'⟩ | h'
  · exact .inl h'
  · exact .inr h'

/-- A vertex with a different vertex reachable in both directions is on a cycle. -/
theorem onCycle_of_mutual {a b : V} (h : Mutual r a b) (hne : a ≠ b) : OnCycle r a := by
  rcases (reflTransGen_iff_eq_or_transGen.mp h.1) with he | ht
  · exact absurd he.symm hne
  · exact ht.trans_left h.2

/-- Being on a cycle is shared by mutually reachable vertices. -/
theorem OnCycle.of_mutual {a b : V} (h : Mutual r a b) (ha : OnCycle r a) : OnCycle r b := by
  by_cases hne : b = a
  · exact hne ▸ ha
  · exact onCycle_of_mutual h.symm hne

/-- If every cycle within reach of `v` passes through `v`, a cycle within reach is `v`'s own. -/
theorem HitsAll.mutual {v u : V} (h : HitsAll r v) (hvu : ReflTransGen r v u)
    (hu : OnCycle r u) : Mutual r v u := by
  by_cases hne : u = v
  · rw [hne]
    exact Mutual.refl v
  · rcases onCycle_avoid_or_through hu hne with hc | ⟨huv, _⟩
    · exact absurd hc (h u hvu)
    · exact ⟨hvu, huv⟩

/-! ## Being led to a vertex -/

/-- `n + 1` edges lead from `y` to `u`. -/
def Edges (r : V → V → Prop) (u : V) : Nat → V → Prop
  | 0, y => r y u
  | n + 1, y => ∃ z, r y z ∧ Edges r u n z

theorem Edges.transGen {u : V} : ∀ {n : Nat} {y : V}, Edges r u n y → TransGen r y u
  | 0, _, h => .single h
  | _ + 1, _, ⟨_, hyz, hz⟩ => .head hyz hz.transGen

theorem exists_edges {u y : V} (h : TransGen r y u) : ∃ n, Edges r u n y := by
  induction h using TransGen.head_induction_on with
  | single h => exact ⟨0, h⟩
  | head hyz _ ih =>
    obtain ⟨n, hn⟩ := ih
    exact ⟨n + 1, _, hyz, hn⟩

/--
A vertex on a cycle can be reached again and again by one successor function,
which goes from each vertex along a shortest way.
-/
theorem exists_lead {u : V} (hu : OnCycle r u) :
    ∃ f : V → V, (∀ y, TransGen r y u → r y (f y) ∧ TransGen r (f y) u) ∧
      ∀ y, TransGen r y u → ∃ n, f^[n + 1] y = u := by
  classical
  let rank : V → Nat := fun y => if h : ∃ n, Edges r u n y then Nat.find h else 0
  have hrank : ∀ n y, Edges r u n y → Edges r u (rank y) y ∧ rank y ≤ n := by
    intro n y h
    have hex : ∃ n, Edges r u n y := ⟨n, h⟩
    rw [show rank y = Nat.find hex from dif_pos hex]
    exact ⟨Nat.find_spec hex, Nat.find_min' hex h⟩
  have hnext : ∀ y, TransGen r y u → ∃ z, r y z ∧ TransGen r z u ∧ (z = u ∨ rank z < rank y) := by
    intro y h
    obtain ⟨n, hn⟩ := exists_edges h
    obtain ⟨hedges, _⟩ := hrank n y hn
    cases hy : rank y with
    | zero =>
      rw [hy] at hedges
      exact ⟨u, hedges, hu, .inl rfl⟩
    | succ k =>
      rw [hy] at hedges
      obtain ⟨z, hyz, hz⟩ := hedges
      exact ⟨z, hyz, hz.transGen, .inr (Nat.lt_succ_of_le (hrank k z hz).2)⟩
  have : Nonempty V := ⟨u⟩
  choose! f hedge hreach hless using hnext
  refine ⟨f, fun y h => ⟨hedge y h, hreach y h⟩, ?_⟩
  have key : ∀ k y, rank y = k → TransGen r y u → ∃ n, f^[n + 1] y = u := by
    intro k
    induction k using Nat.strongRecOn with
    | _ k ih =>
      intro y hk h
      rcases hless y h with hfu | hlt
      · exact ⟨0, hfu⟩
      · obtain ⟨n, hn⟩ := ih _ (hk ▸ hlt) (f y) rfl (hreach y h)
        exact ⟨n + 1, hn⟩
  exact fun y h => key _ y rfl h

end Kmod.Digraph
