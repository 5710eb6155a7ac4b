import SchemaGraph.Conversion.State

/-!
This module contains the rules by which effects are followed step by step. A statement says that two
effects do the same from a state, what holds after a result and what holds after a fault. For a
single effect it is the weakest precondition of the two.
-/

namespace SchemaGraph

namespace Effect

variable {α β : Type}

/--
From `s` the two effects do the same, with `Q` after a result and `E` after a fault.
-/
def Alike (e e' : Effect α) (Q : α → State → Prop) (E : Fault → State → Prop) (s : State) : Prop :=
  e.run s = e'.run s ∧
    match e.run s with
    | (.ok a, t) => Q a t
    | (.error fault, t) => E fault t

abbrev Ends (e : Effect α) (Q : α → State → Prop) (E : Fault → State → Prop) (s : State) : Prop :=
  Alike e e Q E s

abbrev Returns (e : Effect α) (Q : α → State → Prop) (s : State) : Prop :=
  Ends e Q (fun _ _ => True) s

variable {e e' : Effect α} {f f' : α → Effect β} {E E' : Fault → State → Prop} {s t : State}

theorem Alike.ok {Q : α → State → Prop} {a : α} (h : Alike e e' Q E s)
    (hrun : e.run s = (.ok a, t)) : Q a t := by
  have h := h.2
  rw [hrun] at h
  exact h

theorem Alike.error {Q : α → State → Prop} {fault : Fault} (h : Alike e e' Q E s)
    (hrun : e.run s = (.error fault, t)) : E fault t := by
  have h := h.2
  rw [hrun] at h
  exact h

theorem Alike.mono {Q Q' : α → State → Prop} (h : Alike e e' Q E s)
    (hQ : ∀ a t, Q a t → Q' a t) (hE : ∀ fault t, E fault t → E' fault t) :
    Alike e e' Q' E' s := by
  refine ⟨h.1, ?_⟩
  rcases hrun : e.run s with ⟨fault | a, t⟩
  . exact hE fault t (h.error hrun)
  . exact hQ a t (h.ok hrun)

theorem Alike.next {f f' : α → Effect β} {Q : α → State → Prop} {R : β → State → Prop}
    (h : Alike e e' Q E s) (hnext : ∀ a t, Q a t → Alike (f a) (f' a) R E t) :
    Alike (e >>= f) (e' >>= f') R E s := by
  unfold Alike
  rw [run_bind, run_bind, ← h.1]
  rcases hrun : e.run s with ⟨fault | a, t⟩
  . exact ⟨rfl, h.error hrun⟩
  . exact hnext a t (h.ok hrun)

theorem Alike.and {Q Q' : α → State → Prop} (h : Alike e e' Q E s) (h' : Alike e e Q' E' s) :
    Alike e e' (fun a t => Q a t ∧ Q' a t) (fun fault t => E fault t ∧ E' fault t) s := by
  refine ⟨h.1, ?_⟩
  rcases hrun : e.run s with ⟨fault | a, t⟩
  . exact ⟨h.error hrun, h'.error hrun⟩
  . exact ⟨h.ok hrun, h'.ok hrun⟩

theorem Alike.final {Q : α → State → Prop} {P : State → Prop} (h : Alike e e' Q E s)
    (hQ : ∀ a t, Q a t → P t) (hE : ∀ fault t, E fault t → P t) : P (e.run s).2 := by
  rcases hrun : e.run s with ⟨fault | a, t⟩
  . exact hE fault t (h.error hrun)
  . exact hQ a t (h.ok hrun)

theorem returns_of_forall {Q : α → State → Prop} (h : ∀ a t, Q a t) : Returns e Q s := by
  refine ⟨rfl, ?_⟩
  rcases e.run s with ⟨fault | a, t⟩
  . trivial
  . exact h a t

theorem alike_pure {Q : α → State → Prop} {a : α} (h : Q a s) : Alike (pure a) (pure a) Q E s :=
  ⟨rfl, h⟩

theorem alike_fail {Q : α → State → Prop} {fault : Fault} (h : E fault s) :
    Alike (fail fault) (fail fault) Q E s :=
  ⟨rfl, h⟩

theorem alike_build {Q : Handle → State → Prop} {make : Graph → Handle × Graph}
    (h : Q (make s.graph).1 { s with graph := (make s.graph).2 }) :
    Alike (build make) (build make) Q E s :=
  ⟨rfl, h⟩

theorem alike_check_bind {Q : β → State → Prop} {result : Except Fault α}
    (hfault : ∀ fault, result = .error fault → E fault s)
    (hok : ∀ a, result = .ok a → Alike (f a) (f' a) Q E s) :
    Alike (check result >>= f) (check result >>= f') Q E s := by
  have hresult : Ends (check result) (fun a t => result = .ok a ∧ t = s) E s := by
    refine ⟨rfl, ?_⟩
    rw [run_check]
    cases result with
    | error fault => exact hfault fault rfl
    | ok a => exact ⟨rfl, rfl⟩
  apply hresult.next
  rintro a t ⟨ha, rfl⟩
  exact hok a ha

theorem alike_state_bind {f f' : State → Effect β} {Q : β → State → Prop}
    (h : Alike (f s) (f' s) Q E s) : Alike (state >>= f) (state >>= f') Q E s := by
  have hstate : Ends state (fun a t => a = s ∧ t = s) E s := ⟨rfl, rfl, rfl⟩
  apply hstate.next
  rintro a t ⟨rfl, rfl⟩
  exact h

theorem alike_change_bind {f f' : Unit → Effect β} {Q : β → State → Prop} {g : State → State}
    (h : Alike (f ()) (f' ()) Q E (g s)) : Alike (change g >>= f) (change g >>= f') Q E s := by
  have hchange : Ends (change g) (fun _ t => t = g s) E s := ⟨rfl, rfl⟩
  apply hchange.next
  rintro a t rfl
  exact h

theorem alike_fill_bind {f f' : Unit → Effect β} {Q : β → State → Prop}
    {complete : Graph → Except Fault Graph}
    (hfault : ∀ fault, complete s.graph = .error fault → E fault s)
    (hok : ∀ g, complete s.graph = .ok g → Alike (f ()) (f' ()) Q E { s with graph := g }) :
    Alike (fill complete >>= f) (fill complete >>= f') Q E s := by
  have hfill : Ends (fill complete)
      (fun _ t => ∃ g, complete s.graph = .ok g ∧ t = { s with graph := g }) E s := by
    refine ⟨rfl, ?_⟩
    unfold run fill
    cases hg : complete s.graph with
    | error fault => exact hfault fault hg
    | ok g => exact ⟨g, rfl, rfl⟩
  apply hfill.next
  rintro a t ⟨g, hg, rfl⟩
  exact hok g hg

end Effect

end SchemaGraph
