import MiniJam.Proofs.Related
import MiniJam.Typing.Package

/-!
# Checks that report nothing

`Quiet P x Q` says of a part `x` of a check that it takes back no diagnostic, and that if it starts
with `P` and nothing has been reported at its end, then it ends with `Q`.  What is wrong need not be
described: a check that reports something satisfies every `Q`.
-/

namespace MiniJam.Typing

open List

/-- The part `x` of a check takes back no diagnostic; from a state with `P` it ends with `Q`, or
something has been reported. -/
def Quiet {α : Type} (P : State → Prop) (x : Check α) (Q : α → State → Prop) : Prop :=
  ∀ s, match x s with
    | (a, s') => (s'.diagnostics = #[] → s.diagnostics = #[]) ∧ (P s → s'.diagnostics = #[] → Q a s')

section

variable {α β : Type} {P P' : State → Prop} {x : Check α} {Q Q' : α → State → Prop}

theorem Quiet.mono (h : Quiet P x Q) (hP : ∀ s, P' s → P s) (hQ : ∀ a s, Q a s → Q' a s) :
    Quiet P' x Q' :=
  fun s => ⟨(h s).1, fun hs hend => hQ _ _ ((h s).2 (hP s hs) hend)⟩

theorem Quiet.post (h : Quiet P x Q) (hQ : ∀ a s, Q a s → R a s) : Quiet P x R :=
  h.mono (fun _ => id) hQ

theorem Quiet.bind {f : α → Check β} (hx : Quiet P x Q) (hf : ∀ a, Quiet (Q a) (f a) R) :
    Quiet P (x >>= f) R := fun s =>
  ⟨fun hend => (hx s).1 ((hf (x s).1 (x s).2).1 hend),
    fun hs hend => (hf _ _).2 ((hx s).2 hs ((hf (x s).1 (x s).2).1 hend)) hend⟩

theorem Quiet.frame (h : Quiet P x Q) (φ : Prop) :
    Quiet (fun s => φ ∧ P s) x fun a s => φ ∧ Q a s :=
  fun s => ⟨(h s).1, fun hs hend => ⟨hs.1, (h s).2 hs.2 hend⟩⟩

theorem Quiet.assoc {φ ψ : Prop} (h : Quiet (fun s => (φ ∧ ψ) ∧ P s) x Q) :
    Quiet (fun s => φ ∧ ψ ∧ P s) x Q :=
  h.mono (fun _ hs => ⟨⟨hs.1, hs.2.1⟩, hs.2.2⟩) fun _ _ => id

theorem quiet_pure (a : α) (h : ∀ s, P s → Q a s) : Quiet P (pure a) Q :=
  fun s => ⟨id, fun hs _ => h s hs⟩

theorem quiet_get : Quiet P get fun a s => a = s ∧ P s := fun _ => ⟨id, fun hs _ => ⟨rfl, hs⟩⟩

theorem quiet_modifyScopes {f : Scopes Binding → Scopes Binding}
    (h : ∀ s, P s → R () { s with scopes := f s.scopes }) : Quiet P (modifyScopes f) R :=
  fun s => ⟨id, fun hs _ => h s hs⟩

theorem quiet_report (span : Option Span) (message : String) : Quiet P (report span message) R := by
  intro s
  have hne : s.diagnostics.push ⟨span, message⟩ ≠ #[] := Array.push_ne_empty
  exact ⟨fun hend => absurd hend hne, fun _ hend => absurd hend hne⟩

theorem quiet_refuse (span : Option Span) (message : String) (a : α) :
    Quiet P (report span message >>= fun _ => pure a) Q :=
  (quiet_report span message).bind fun _ => quiet_pure a fun _ => False.elim

theorem Quiet.ite {c : Prop} [Decidable c] (hx : c → Quiet P x Q) (hy : ¬ c → Quiet P y Q) :
    Quiet P (if c then x else y) Q := by
  split
  · exact hx ‹_›
  · exact hy ‹_›

/-- The part `x` of a check takes back no diagnostic. -/
def Grows (x : Check α) : Prop :=
  ∀ s, (match x s with | (_, s') => s'.diagnostics = #[]) → s.diagnostics = #[]

theorem Quiet.assume {φ : Prop} (hx : Grows x) (h : φ → Quiet P x Q) :
    Quiet (fun s => φ ∧ P s) x Q :=
  fun s => ⟨hx s, fun hs => (h hs.1 s).2 hs.2⟩

theorem Grows.bind {f : α → Check β} (hx : Grows x) (hf : ∀ a, Grows (f a)) : Grows (x >>= f) :=
  fun s hend => hx s (hf _ _ hend)

theorem grows_pure (a : α) : Grows (pure a : Check α) := fun _ => id

theorem quiet_reportIf {c : Prop} [Decidable c] (span : Option Span) (message : String)
    (h : Quiet (fun s => ¬ c ∧ P s) x Q) :
    Quiet P (if c then report span message >>= fun _ => x else x) Q :=
  Quiet.ite (fun _ => (quiet_report span message).bind fun _ => h)
    fun hc => h.mono (fun _ hs => ⟨hc, hs⟩) fun _ _ => id

end

/-! ### Loops -/

section

variable {α β : Type} {P : State → Prop}

theorem quiet_forIn {I : List α → State → Prop} (xs : List α)
    {f : α → PUnit → Check (ForInStep PUnit)} (hf : ∀ done x rest, xs = done ++ x :: rest →
      Quiet (I done) (f x .unit) fun r s => r = .yield .unit ∧ I (done ++ [x]) s) :
    Quiet (I []) (forIn xs PUnit.unit f) fun _ => I xs := by
  suffices h : ∀ rest done, xs = done ++ rest →
      Quiet (I done) (forIn rest PUnit.unit f) fun _ => I xs from h xs [] rfl
  intro rest
  induction rest with
  | nil =>
    rintro done rfl
    exact quiet_pure _ fun s hs => by simpa using hs
  | cons x rest ih =>
    intro done hxs
    rw [forIn_cons]
    refine (hf done x rest hxs).bind fun r => ?_
    cases r with
    | done => exact quiet_pure _ fun s hs => nomatch hs.1
    | yield => exact (ih (done ++ [x]) (by simpa using hxs)).mono (fun s hs => hs.2) fun _ _ h => h

theorem Quiet.yield (h : Quiet P x fun _ => Q) :
    Quiet P (do x; pure (.yield .unit)) fun r s => r = ForInStep.yield PUnit.unit ∧ Q s :=
  h.bind fun _ => quiet_pure _ fun _ hs => ⟨rfl, hs⟩

theorem quiet_mapM (xs : List α) {f : α → Check β}
    (hf : ∀ x ∈ xs, Quiet P (f x) fun y s => R x y ∧ P s) :
    Quiet P (xs.mapM f) fun ys s => List.Forall₂ R xs ys ∧ P s := by
  induction xs with
  | nil => exact quiet_pure _ fun s hs => ⟨.nil, hs⟩
  | cons x xs ih =>
    rw [mapM_cons]
    refine (hf x mem_cons_self).bind fun y => ?_
    refine ((ih fun x hx => hf x (mem_cons_of_mem _ hx)).frame _).bind fun ys => ?_
    exact quiet_pure _ fun s hs => ⟨.cons hs.1 hs.2.1, hs.2.2⟩

theorem quiet_mapM_eq {g : α → β} {φ : α → Prop} (xs : List α) {f : α → Check β}
    (hf : ∀ x ∈ xs, Quiet P (f x) fun y s => (y = g x ∧ φ x) ∧ P s) :
    Quiet P (xs.mapM f) fun ys s => (ys = xs.map g ∧ ∀ x ∈ xs, φ x) ∧ P s := by
  refine (quiet_mapM xs hf).post fun ys s hs => ⟨?_, hs.2⟩
  have hxs := hs.1
  clear hs hf
  induction hxs with
  | nil => exact ⟨rfl, nofun⟩
  | cons hxy _ ih => exact ⟨by rw [hxy.1, ih.1, map_cons], by simpa using ⟨hxy.2, ih.2⟩⟩

theorem quiet_foldlM (xs : List α) {f : β → α → Check β}
    (hf : ∀ b, ∀ x ∈ xs, Quiet (I b) (f b x) I) (b : β) : Quiet (I b) (xs.foldlM f b) I := by
  induction xs generalizing b with
  | nil => exact quiet_pure _ fun s hs => hs
  | cons x xs ih =>
    exact (hf b x mem_cons_self).bind (ih fun b x hx => hf b x (mem_cons_of_mem _ hx))

end

end MiniJam.Typing
