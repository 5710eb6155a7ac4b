import SchemaGraph.Conversion.State
import SchemaGraph.Proofs.Alike
import SchemaGraph.Proofs.Reordering.Documents
import SchemaGraph.Proofs.Reordering.Mirrors

/-!
This module contains the rules by which two effects on two states are followed side by side. Either
both give results, and the states that they reach mirror each other as the first ones did, or both
end with faults. The sole exception is a bound on the depth that only one of them meets.
-/

namespace SchemaGraph

def Fault.isEndless : Fault → Bool
  | .endlessUnification _ => true
  | .endlessDescent _ => true
  | _ => false

structure StatePair where
  left : State
  right : State
  nodes : Correspondence

structure StatePair.Mirrors (p : StatePair) : Prop where
  document : Twins p.left.document p.right.document
  graph : p.left.graph.Mirrors p.nodes p.right.graph
  memo loc : Option.Rel p.nodes (p.left.memo.get? loc) (p.right.memo.get? loc)
  active : p.left.active = p.right.active
  reentered : p.left.reentered = p.right.reentered

structure StatePair.GoesTo (p q : StatePair) : Prop where
  sub h k : p.nodes h k → q.nodes h k
  evolves : p.left.graph.Evolves q.left.graph
  evolves' : p.right.graph.Evolves q.right.graph
  mirrors : q.Mirrors

inductive Outcome {α β : Type} (Q : α → State → β → State → Prop) :
    Except Fault α × State → Except Fault β × State → Prop
  | results {a : α} {t : State} {b : β} {t' : State} (h : Q a t b t') :
    Outcome Q (.ok a, t) (.ok b, t')
  | faults {fault fault' : Fault} {t t' : State} : Outcome Q (.error fault, t) (.error fault', t')
  | endless {fault : Fault} {t : State} {result : Except Fault β × State}
    (h : fault.isEndless = true) : Outcome Q (.error fault, t) result
  | endless' {fault : Fault} {t' : State} {result : Except Fault α × State}
    (h : fault.isEndless = true) : Outcome Q result (.error fault, t')

theorem Outcome.map {α β : Type} {Q Q' : α → State → β → State → Prop}
    {left : Except Fault α × State} {right : Except Fault β × State} (h : Outcome Q left right)
    (f f' : State → State) (hQ : ∀ a t b t', Q a t b t' → Q' a (f t) b (f' t')) :
    Outcome Q' (left.1, f left.2) (right.1, f' right.2) := by
  cases h with
  | results h => exact .results (hQ _ _ _ _ h)
  | faults => exact .faults
  | endless h => exact .endless h
  | endless' h => exact .endless' h

theorem Outcome.ok_iff {α β : Type} {Q : α → State → β → State → Prop}
    {left : Except Fault α × State} {right : Except Fault β × State} (h : Outcome Q left right)
    (hleft : ∀ fault, left.1 = .error fault → fault.isEndless = false)
    (hright : ∀ fault, right.1 = .error fault → fault.isEndless = false) :
    (∃ a, left.1 = .ok a) ↔ ∃ b, right.1 = .ok b := by
  cases h with
  | results _ => exact ⟨fun _ => ⟨_, rfl⟩, fun _ => ⟨_, rfl⟩⟩
  | faults => exact ⟨nofun, nofun⟩
  | endless h => cases h.symm.trans (hleft _ rfl)
  | endless' h => cases h.symm.trans (hright _ rfl)

namespace StatePair

variable {p q r : StatePair}

theorem GoesTo.refl (hp : p.Mirrors) : p.GoesTo p :=
  ⟨fun _ _ => id, .refl _, .refl _, hp⟩

theorem GoesTo.trans (hpq : p.GoesTo q) (hqr : q.GoesTo r) : p.GoesTo r :=
  ⟨fun h k hR => hqr.sub h k (hpq.sub h k hR), hpq.evolves.trans hqr.evolves,
    hpq.evolves'.trans hqr.evolves', hqr.mirrors⟩

theorem Mirrors.withGraphs {g g' : Graph} {nodes : Correspondence} (hp : p.Mirrors)
    (hsub : ∀ h k, p.nodes h k → nodes h k) (hg : p.left.graph.Evolves g)
    (hg' : p.right.graph.Evolves g') (hgraphs : g.Mirrors nodes g') :
    p.GoesTo ⟨{ p.left with graph := g }, { p.right with graph := g' }, nodes⟩ := by
  refine ⟨hsub, hg, hg', hp.document, hgraphs, ?_, hp.active, hp.reentered⟩
  intro loc
  match p.left.memo.get? loc, p.right.memo.get? loc, hp.memo loc with
  | _, _, .some hR => exact .some (hsub _ _ hR)
  | _, _, .none => exact .none

theorem Mirrors.journal (hp : p.Mirrors) (journal journal' : List Event) :
    p.GoesTo ⟨{ p.left with journal }, { p.right with journal := journal' }, p.nodes⟩ :=
  ⟨fun _ _ => id, .refl _, .refl _, hp.document, hp.graph, hp.memo, hp.active, hp.reentered⟩

end StatePair

namespace Effect

def Mirrored {α β : Type} (p : StatePair) (e : Effect α) (e' : Effect β)
    (P : α → β → StatePair → Prop) : Prop :=
  Outcome (fun a t b t' => ∃ nodes, p.GoesTo ⟨t, t', nodes⟩ ∧ P a b ⟨t, t', nodes⟩)
    (e.run p.left) (e'.run p.right)

variable {α β γ δ : Type} {p q : StatePair} {e : Effect α} {e' : Effect β}
  {f : α → Effect γ} {f' : β → Effect δ} {P : α → β → StatePair → Prop}
  {Q : γ → δ → StatePair → Prop}

theorem Mirrored.since (h : Mirrored q e e' P) (hpq : p.GoesTo q) :
    Outcome (fun a t b t' => ∃ nodes, p.GoesTo ⟨t, t', nodes⟩ ∧ P a b ⟨t, t', nodes⟩)
      (e.run q.left) (e'.run q.right) := by
  apply Outcome.map h id id
  rintro a t b t' ⟨nodes, hqr, hP⟩
  exact ⟨nodes, hpq.trans hqr, hP⟩

theorem Mirrored.next (h : Mirrored p e e' P)
    (hnext : ∀ a b q, p.GoesTo q → P a b q → Mirrored q (f a) (f' b) Q) :
    Mirrored p (e >>= f) (e' >>= f') Q := by
  unfold Mirrored at h ⊢
  rw [run_bind, run_bind]
  match e.run p.left, e'.run p.right, h with
  | _, _, .results ⟨nodes, hpq, h⟩ => exact (hnext _ _ _ hpq h).since hpq
  | _, _, .faults => exact .faults
  | _, _, .endless h => exact .endless h
  | _, _, .endless' h => exact .endless' h

theorem Mirrored.left {Q : α → State → Prop} {E : Fault → State → Prop} (h : Mirrored p e e' P)
    (hleft : Ends e Q E p.left) : Mirrored p e e' fun a b q => P a b q ∧ Q a q.left := by
  have hends := hleft.2
  unfold Mirrored at h ⊢
  match e.run p.left, e'.run p.right, h, hends with
  | _, _, .results ⟨nodes, hpq, h⟩, hends => exact .results ⟨nodes, hpq, h, hends⟩
  | _, _, .faults, _ => exact .faults
  | _, _, .endless h, _ => exact .endless h
  | _, _, .endless' h, _ => exact .endless' h

theorem mirrored_pure {a : α} {b : β} (hp : p.Mirrors) (hP : P a b p) :
    Mirrored p (pure a) (pure b) P :=
  .results ⟨p.nodes, .refl hp, hP⟩

theorem mirrored_fail (fault fault' : Fault) : Mirrored p (fail fault) (fail fault') P :=
  .faults

theorem mirrored_check_bind {x : Except Fault α} {x' : Except Fault β} {r : α → β → Prop}
    (h : Agree r x x') (hnext : ∀ a b, r a b → Mirrored p (f a) (f' b) Q) :
    Mirrored p (check x >>= f) (check x' >>= f') Q := by
  unfold Mirrored
  rw [run_bind, run_bind, run_check, run_check]
  cases h with
  | faults fault fault' => exact .faults
  | values h => exact hnext _ _ h

theorem mirrored_state_bind {f : State → Effect γ} {f' : State → Effect δ}
    (h : Mirrored p (f p.left) (f' p.right) Q) :
    Mirrored p (state >>= f) (state >>= f') Q := h

theorem mirrored_change_bind {f : Unit → Effect γ} {f' : Unit → Effect δ} {g g' : State → State}
    (hpq : p.GoesTo ⟨g p.left, g' p.right, p.nodes⟩)
    (h : Mirrored ⟨g p.left, g' p.right, p.nodes⟩ (f ()) (f' ()) Q) :
    Mirrored p (change g >>= f) (change g' >>= f') Q := by
  have hchange : Mirrored p (change g) (change g')
      fun _ _ q => q = ⟨g p.left, g' p.right, p.nodes⟩ := .results ⟨p.nodes, hpq, rfl⟩
  apply hchange.next
  rintro _ _ _ - rfl
  exact h

theorem mirrored_build {make make' : Graph → Handle × Graph} (hp : p.Mirrors)
    (h : ∃ nodes, Graph.Joins p.nodes p.left.graph p.right.graph (make p.left.graph)
      (make' p.right.graph) nodes) :
    Mirrored p (build make) (build make') fun h k q => q.nodes h k := by
  obtain ⟨nodes, hjoins⟩ := h
  exact .results ⟨nodes, hp.withGraphs hjoins.sub hjoins.evolves hjoins.evolves' hjoins.mirrors,
    hjoins.related⟩

theorem mirrored_build_left {f : Handle → Effect α} {make : Graph → Handle × Graph}
    (hpq : p.GoesTo ⟨{ p.left with graph := (make p.left.graph).2 }, p.right, p.nodes⟩)
    (h : Mirrored ⟨{ p.left with graph := (make p.left.graph).2 }, p.right, p.nodes⟩
      (f (make p.left.graph).1) e' P) : Mirrored p (build make >>= f) e' P := by
  unfold Mirrored
  rw [run_bind, run_build]
  exact h.since hpq

theorem mirrored_build_right {f : Handle → Effect β} {make : Graph → Handle × Graph}
    (hpq : p.GoesTo ⟨p.left, { p.right with graph := (make p.right.graph).2 }, p.nodes⟩)
    (h : Mirrored ⟨p.left, { p.right with graph := (make p.right.graph).2 }, p.nodes⟩ e
      (f (make p.right.graph).1) P) : Mirrored p e (build make >>= f) P := by
  unfold Mirrored
  rw [run_bind, run_build]
  exact h.since hpq

theorem mirrored_collect {effects effects' : List (Effect Handle)} (hp : p.Mirrors)
    (h : List.Forall₂ (fun e e' => ∀ q : StatePair, q.Mirrors →
      Mirrored q e e' fun h k r => r.nodes h k) effects effects') :
    Mirrored p (collect effects) (collect effects') fun hs ks q =>
      List.Forall₂ q.nodes hs ks := by
  induction h generalizing p with
  | nil => exact mirrored_pure hp .nil
  | cons hfirst _ ih =>
    apply (hfirst p hp).next
    intro h k q hpq hR
    apply (ih hpq.mirrors).next
    intro hs ks r hqr hRs
    exact mirrored_pure hqr.mirrors (.cons (hqr.sub _ _ hR) hRs)

end Effect

end SchemaGraph
