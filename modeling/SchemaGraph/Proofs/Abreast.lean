import SchemaGraph.Proofs.Alike

/-!
This module contains the rules by which two effects are followed from two states side by side. They
run abreast when they end alike: with one and the same result, or with one and the same fault. The
states that they reach are compared by a relation.
-/

namespace SchemaGraph

variable {α β γ δ : Type}

/--
The results are values with `r` between them, or they are the same fault, which has `F`.
-/
inductive Matched (F : Fault → Prop) (r : α → β → Prop) : Except Fault α → Except Fault β → Prop
  | fault {fault : Fault} (h : F fault) : Matched F r (.error fault) (.error fault)
  | values {a : α} {b : β} (h : r a b) : Matched F r (.ok a) (.ok b)

namespace Matched

variable {F F' : Fault → Prop} {r r' : α → β → Prop} {q : γ → δ → Prop}
  {x : Except Fault α} {y : Except Fault β}

theorem mono (h : Matched F r x y) (hF : ∀ fault, F fault → F' fault)
    (hr : ∀ a b, r a b → r' a b) : Matched F' r' x y := by
  cases h with
  | fault h => exact .fault (hF _ h)
  | values h => exact .values (hr _ _ h)

theorem bind {f : α → Except Fault γ} {g : β → Except Fault δ} (h : Matched F r x y)
    (hnext : ∀ a b, r a b → Matched F q (f a) (g b)) : Matched F q (x >>= f) (y >>= g) := by
  cases h with
  | fault h => exact .fault h
  | values h => exact hnext _ _ h

theorem self {r : α → α → Prop} {x : Except Fault α} (hF : ∀ fault, x = .error fault → F fault)
    (hr : ∀ a, x = .ok a → r a a) : Matched F r x x := by
  cases x with
  | error fault => exact .fault (hF fault rfl)
  | ok a => exact .values (hr a rfl)

theorem attach (h : Matched F r x y) : Matched F (fun a b => r a b ∧ x = .ok a) x y := by
  cases h with
  | fault h => exact .fault h
  | values h => exact .values ⟨h, rfl⟩

end Matched

namespace Effect

inductive SameEnd (Q : α → State → State → Prop) (E : Fault → State → State → Prop) :
    Except Fault α × State → Except Fault α × State → Prop
  | result {a : α} {t t' : State} (h : Q a t t') : SameEnd Q E (.ok a, t) (.ok a, t')
  | fault {fault : Fault} {t t' : State} (h : E fault t t') :
    SameEnd Q E (.error fault, t) (.error fault, t')

def Abreast (e e' : Effect α) (Q : α → State → State → Prop) (E : Fault → State → State → Prop)
    (s s' : State) : Prop :=
  SameEnd Q E (e.run s) (e'.run s')

variable {e e' : Effect α} {f f' : α → Effect β} {Q Q' : α → State → State → Prop}
  {R : β → State → State → Prop} {E E' : Fault → State → State → Prop} {s s' : State}

theorem SameEnd.eq {left right : Except Fault α × State} (h : SameEnd Q E left right) :
    left.1 = right.1 := by
  cases h with
  | result _ => rfl
  | fault _ => rfl

theorem SameEnd.final {P : State → State → Prop} {left right : Except Fault α × State}
    (h : SameEnd Q E left right) (hQ : ∀ a t t', Q a t t' → P t t')
    (hE : ∀ fault t t', E fault t t' → P t t') : P left.2 right.2 := by
  cases h with
  | result h => exact hQ _ _ _ h
  | fault h => exact hE _ _ _ h

theorem SameEnd.map {left right : Except Fault α × State} (h : SameEnd Q E left right)
    (f f' : State → State) (hQ : ∀ a t t', Q a t t' → Q' a (f t) (f' t'))
    (hE : ∀ fault t t', E fault t t' → E' fault (f t) (f' t')) :
    SameEnd Q' E' (left.1, f left.2) (right.1, f' right.2) := by
  cases h with
  | result h => exact .result (hQ _ _ _ h)
  | fault h => exact .fault (hE _ _ _ h)

theorem Abreast.mono (h : Abreast e e' Q E s s') (hQ : ∀ a t t', Q a t t' → Q' a t t')
    (hE : ∀ fault t t', E fault t t' → E' fault t t') : Abreast e e' Q' E' s s' :=
  SameEnd.map h id id hQ hE

theorem Abreast.next (h : Abreast e e' Q E s s')
    (hnext : ∀ a t t', Q a t t' → Abreast (f a) (f' a) R E t t') :
    Abreast (e >>= f) (e' >>= f') R E s s' := by
  unfold Abreast at h ⊢
  rw [run_bind, run_bind]
  match e.run s, e'.run s', h with
  | _, _, .result h => exact hnext _ _ _ h
  | _, _, .fault h => exact .fault h

theorem abreast_pure {a : α} (h : Q a s s') : Abreast (pure a) (pure a) Q E s s' :=
  .result h

theorem abreast_fail {fault : Fault} (h : E fault s s') :
    Abreast (fail fault) (fail fault) Q E s s' :=
  .fault h

theorem abreast_build {Q : Handle → State → State → Prop} {make make' : Graph → Handle × Graph}
    (hhandle : (make s.graph).1 = (make' s'.graph).1)
    (h : Q (make s.graph).1 { s with graph := (make s.graph).2 }
      { s' with graph := (make' s'.graph).2 }) : Abreast (build make) (build make') Q E s s' := by
  unfold Abreast
  rw [run_build, run_build, ← hhandle]
  exact .result h

theorem abreast_check_bind {r : α → γ → Prop} {f' : γ → Effect β} {x : Except Fault α}
    {x' : Except Fault γ} (h : Matched (fun fault => E fault s s') r x x')
    (hnext : ∀ a b, r a b → Abreast (f a) (f' b) R E s s') :
    Abreast (check x >>= f) (check x' >>= f') R E s s' := by
  unfold Abreast
  rw [run_bind, run_bind, run_check, run_check]
  cases h with
  | fault h => exact .fault h
  | values h => exact hnext _ _ h

theorem abreast_state_bind {f f' : State → Effect β} (h : Abreast (f s) (f' s') R E s s') :
    Abreast (state >>= f) (state >>= f') R E s s' := h

theorem abreast_change_bind {f f' : Unit → Effect β} {g g' : State → State}
    (h : Abreast (f ()) (f' ()) R E (g s) (g' s')) :
    Abreast (change g >>= f) (change g' >>= f') R E s s' := h

theorem Abreast.alike {Q : α → State → Prop} {E : Fault → State → Prop}
    (h : Abreast e e' (fun a t t' => t = t' ∧ Q a t) (fun fault t t' => t = t' ∧ E fault t) s s) :
    Alike e e' Q E s := by
  unfold Abreast at h
  unfold Alike
  match e.run s, e'.run s, h with
  | _, _, .result h =>
    obtain ⟨rfl, hQ⟩ := h
    exact ⟨rfl, hQ⟩
  | _, _, .fault h =>
    obtain ⟨rfl, hE⟩ := h
    exact ⟨rfl, hE⟩

theorem Alike.abreast {Q : α → State → Prop} {E : Fault → State → Prop} (h : Alike e e' Q E s) :
    Abreast e e' (fun a t t' => t = t' ∧ Q a t) (fun fault t t' => t = t' ∧ E fault t) s s := by
  unfold Abreast
  rw [← h.1]
  rcases hrun : e.run s with ⟨fault | a, t⟩
  . exact .fault ⟨rfl, h.error hrun⟩
  . exact .result ⟨rfl, h.ok hrun⟩

end Effect

end SchemaGraph
