import SchemaGraph.Proofs.Session.Calls

/-!
This module contains the rules by which the calls are found that an effect makes. From a state it
consults some calls and no others: a fault of one of these is its own fault, whichever it is, and it
does not depend on how any other call is answered.
-/

namespace SchemaGraph

variable {α β ι : Type}

namespace Effect

theorem run_bind_eq_ok {e : Effect α} {next : α → Effect β} {s u : State} {b : β} :
    (e >>= next).run s = (.ok b, u) ↔
      ∃ a t, e.run s = (.ok a, t) ∧ (next a).run t = (.ok b, u) := by
  rw [run_bind]
  rcases e.run s with ⟨fault | a, t⟩
  . simp
  . simp

theorem run_collect_cons_eq_ok {e : Effect α} {rest : List (Effect α)} {s u : State}
    {results : List α} :
    (collect (e :: rest)).run s = (.ok results, u) ↔
      ∃ result t results', e.run s = (.ok result, t) ∧
        (collect rest).run t = (.ok results', u) ∧ results = result :: results' := by
  rw [collect]
  simp only [run_bind_eq_ok, run_pure, Prod.mk.injEq, Except.ok.injEq]
  constructor
  . rintro ⟨result, t, hresult, results', v, hrest, rfl, rfl⟩
    exact ⟨result, t, results', hresult, hrest, rfl⟩
  . rintro ⟨result, t, results', hresult, hrest, rfl⟩
    exact ⟨result, t, hresult, results', u, hrest, rfl, rfl⟩

theorem ends_iff_fault {e : Effect α} {s : State} {fault : Fault} :
    Ends e (fun _ _ => False) (fun fault' _ => fault' = fault) s ↔ (e.run s).1 = .error fault := by
  constructor
  . intro h
    rcases hrun : e.run s with ⟨fault' | a, t⟩
    . rw [h.error hrun]
    . exact (h.ok hrun).elim
  . intro h
    refine ⟨rfl, ?_⟩
    rcases hrun : e.run s with ⟨fault' | a, t⟩
    . rw [hrun] at h
      exact Except.error.inj h
    . rw [hrun] at h
      cases h

end Effect

namespace Call

open Effect

def AnswersBut (b : State × Call) (ask : Call → Effect Handle) : Prop :=
  ∀ s c, (s, c) ≠ b → (ask c).run s = c.effect.run s

/--
From `s` the effect makes the calls in `P` and no others. A fault of one of them is its own fault.
-/
structure Consults (e : (Call → Effect Handle) → Effect α) (s : State)
    (P : State × Call → Prop) : Prop where
  stops : ∀ b, P b → ∀ ask fault, AnswersBut b ask → ((ask b.2).run b.1).1 = .error fault →
    ((e ask).run s).1 = .error fault
  ignores : ∀ b, ¬P b → ∀ ask, AnswersBut b ask → (e ask).run s = (e effect).run s

variable {e : (Call → Effect Handle) → Effect α} {f : (Call → Effect Handle) → α → Effect β}
  {s : State} {P P' : State × Call → Prop}

theorem Consults.congr (h : Consults e s P) (hP : ∀ b, P b ↔ P' b) : Consults e s P' := by
  rw [← funext fun b => propext (hP b)]
  exact h

theorem consults_none (e : Effect α) (hnone : ∀ b, ¬P b) : Consults (fun _ => e) s P :=
  ⟨fun b hb => absurd hb (hnone b), fun _ _ _ _ => rfl⟩

theorem consults_call (c : Call) : Consults (fun ask => ask c) s fun b => b = (s, c) := by
  constructor
  . rintro b rfl ask fault - hfault
    exact hfault
  . intro b hb ask hask
    exact hask s c (Ne.symm hb)

theorem Consults.bind {Q : α → State → State × Call → Prop} (h : Consults e s P)
    (hnext : ∀ a t, (e effect).run s = (.ok a, t) → Consults (fun ask => f ask a) t (Q a t)) :
    Consults (fun ask => e ask >>= f ask) s fun b =>
      P b ∨ ∃ a t, (e effect).run s = (.ok a, t) ∧ Q a t b := by
  classical
  constructor
  . intro b hb ask fault hask hfault
    by_cases hfirst : P b
    . have hstop := ends_iff_fault.2 (h.stops b hfirst ask fault hask hfault)
      exact ends_iff_fault.1 (hstop.next fun _ _ h => h.elim)
    . obtain ⟨a, t, hrun, hb⟩ := hb.resolve_left hfirst
      rw [run_bind, h.ignores b hfirst ask hask, hrun]
      exact (hnext a t hrun).stops b hb ask fault hask hfault
  . intro b hb ask hask
    have hfirst : ¬P b := fun h => hb (.inl h)
    rw [run_bind, run_bind, h.ignores b hfirst ask hask]
    rcases hrun : (e effect).run s with ⟨fault | a, t⟩
    . rfl
    . exact (hnext a t hrun).ignores b (fun h => hb (.inr ⟨a, t, hrun, h⟩)) ask hask

theorem Consults.then (h : Consults e s P) (next : α → Effect β) :
    Consults (fun ask => e ask >>= next) s P := by
  apply (h.bind (f := fun _ => next) (Q := fun _ _ _ => False) fun a t _ =>
    consults_none (next a) fun _ => id).congr
  simp

theorem consults_run_bind {first : Effect α} {a : α} {t : State} (hrun : first.run s = (.ok a, t))
    (hnext : Consults (fun ask => f ask a) t P) :
    Consults (fun ask => first >>= f ask) s P := by
  apply ((consults_none first fun _ => id).bind (f := f) (Q := fun _ _ => P) ?_).congr
  . simp [hrun]
  . intro a' t' hrun'
    cases hrun.symm.trans hrun'
    exact hnext

theorem consults_check_bind {result : Except Fault α}
    (hfault : ∀ fault, result = .error fault → ∀ b, ¬P b)
    (hok : ∀ a, result = .ok a → Consults (fun ask => f ask a) s P) :
    Consults (fun ask => check result >>= f ask) s P := by
  cases result with
  | error fault => exact consults_none (fail fault) (hfault fault rfl)
  | ok a => exact consults_run_bind rfl (hok a rfl)

theorem consults_build_bind {f : (Call → Effect Handle) → Handle → Effect β}
    {make : Graph → Handle × Graph}
    (h : Consults (fun ask => f ask (make s.graph).1) { s with graph := (make s.graph).2 } P) :
    Consults (fun ask => build make >>= f ask) s P :=
  consults_run_bind (run_build make s) h

theorem consults_change_bind {f : (Call → Effect Handle) → Unit → Effect β} {g : State → State}
    (h : Consults (fun ask => f ask ()) (g s) P) :
    Consults (fun ask => change g >>= f ask) s P :=
  consults_run_bind (run_change g s) h

theorem consults_state_bind {f : (Call → Effect Handle) → State → Effect β}
    (h : Consults (fun ask => f ask s) s P) : Consults (fun ask => state >>= f ask) s P :=
  consults_run_bind (run_state s) h

theorem consults_collect {step : (Call → Effect Handle) → ι → Effect α}
    {Q : ι → State → State × Call → Prop}
    (hstep : ∀ i t, Consults (fun ask => step ask i) t (Q i t)) (items : List ι) :
    Consults (fun ask => collect (items.map (step ask))) s fun b =>
      ∃ before i after results t, items = before ++ i :: after ∧
        (collect (before.map (step effect))).run s = (.ok results, t) ∧ Q i t b := by
  induction items generalizing s with
  | nil => exact consults_none (pure []) (by simp)
  | cons i rest ih =>
    have hcollect := (hstep i s).bind (f := fun ask result => collect (rest.map (step ask)) >>=
      fun results => pure (result :: results)) fun result t _ => (ih (s := t)).then _
    apply hcollect.congr
    intro b
    constructor
    . rintro (hb | ⟨result, t, hrun, before, j, after, results, u, rfl, hbefore, hb⟩)
      . exact ⟨[], i, rest, [], s, rfl, rfl, hb⟩
      . exact ⟨i :: before, j, after, result :: results, u, rfl,
          run_collect_cons_eq_ok.2 ⟨result, t, results, hrun, hbefore, rfl⟩, hb⟩
    . rintro ⟨_ | ⟨_, before⟩, j, after, results, u, hitems, hbefore, hb⟩
      . cases hitems
        cases hbefore
        exact .inl hb
      . cases hitems
        obtain ⟨result, t, results', hrun, hrest, -⟩ := run_collect_cons_eq_ok.1 hbefore
        exact .inr ⟨result, t, hrun, before, j, after, results', u, rfl, hrest, hb⟩

end Call

end SchemaGraph
