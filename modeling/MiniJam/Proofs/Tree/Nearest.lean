import MiniJam.Proofs.Tree.Tracked

/-!
# Every `else` goes to the nearest `if`

A statement that could be followed by an `else` is never followed by one when it has been read
(`Settled`), and so the trees that are read are those that the grammar singles out.
-/

namespace MiniJam

namespace Tree.Parse

/-- What is read, if anything is, is in the relation `P` to the tokens left. -/
def Attempt.Leaves {α : Type} {n : Nat} (x : Attempt α n) (P : α → List Token → Prop) : Prop :=
  ∀ r, x = .ok r → P r.value r.rest

namespace Attempt

variable {α β : Type} {n k : Nat} {P : α → List Token → Prop} {Q : β → List Token → Prop}

theorem Leaves.bind {x : Attempt α n} {f : Reading α n → Attempt β k} (hx : x.Leaves P)
    (hf : ∀ r, P r.value r.rest → Leaves (f r) Q) : Leaves (x >>= f) Q := by
  intro r hr
  cases x with
  | error d => cases hr
  | ok a => exact hf a (hx a rfl) r hr

theorem leaves_pure {r : Reading α n} (h : P r.value r.rest) : Leaves (pure r : Attempt α n) P := by
  rintro _ ⟨⟩
  exact h

theorem leaves_true (x : Attempt α n) : x.Leaves fun _ _ => True := fun _ _ => trivial

theorem leaves_refuse (eof : Token) (us : List Token) (message : Token → String) :
    Leaves (refuse eof us message : Attempt α n) P := nofun

end Attempt

open Attempt

variable {eof : Token}

/-- The statement has its `else`s, and the next token is not another one for it. -/
def Settled (eof : Token) (s : Stmt) (rest : List Token) : Prop :=
  s.ElseNearest ∧ (s.EndsOpen → kindAt eof rest ≠ .kwElse)

theorem accept?_eq_some {k : Kind} {ts : List Token} {t : Token} {rest : List Token}
    {hlt : rest.length < ts.length} (h : accept? k ts = some ⟨t, rest, hlt⟩) :
    ts = t :: rest ∧ t.kind = k := by
  cases ts with
  | nil => cases h
  | cons t' rest' =>
    simp only [accept?, Option.ite_none_right_eq_some, Option.some.injEq, Reading.mk.injEq] at h
    obtain ⟨hk, rfl, rfl⟩ := h
    exact ⟨rfl, hk⟩

theorem accept?_eq_none (hk : k ≠ .eof) (heof : eof.kind = .eof) (h : accept? k ts = none) :
    kindAt eof ts ≠ k := by
  cases ts with
  | nil => exact fun heq => hk (heq.symm.trans heof)
  | cons t rest => simpa [accept?, kindAt, current] using h

theorem leaves_simple (ts : List Token) : (simple eof ts).Leaves (Settled eof) := by
  unfold simple
  split
  · iterate 5
      refine (leaves_true _).bind ?_
      rintro ⟨_, _, _⟩ _
    exact leaves_pure ⟨trivial, False.elim⟩
  · refine (leaves_true _).bind ?_
    rintro ⟨r, ts₁, h₁⟩ _
    simp only
    split
    · iterate 2
        refine (leaves_true _).bind ?_
        rintro ⟨_, _, _⟩ _
      exact leaves_pure ⟨trivial, False.elim⟩
    · split
      · iterate 2
          refine (leaves_true _).bind ?_
          rintro ⟨_, _, _⟩ _
        exact leaves_pure ⟨trivial, False.elim⟩
      · exact leaves_refuse _ _ _

variable (heof : eof.kind = .eof)
include heof

mutual

theorem leaves_stmt (ts : List Token) : (stmt eof ts).Leaves (Settled eof) := by
  match ts with
  | [] =>
    rw [stmt]
    exact leaves_simple []
  | t :: ts₁ =>
    rw [stmt]
    split
    · refine (leaves_stmts false ts₁).bind fun ⟨body, ts₂, h₂⟩ hb => ?_
      exact (leaves_true _).bind fun _ _ => leaves_pure ⟨hb, False.elim⟩
    · refine (leaves_true _).bind fun ⟨cond, ts₂, h₂⟩ _ => ?_
      refine (leaves_stmt ts₂).bind fun ⟨body, ts₃, h₃⟩ hb => ?_
      simp only
      split
      · rename_i hnone
        exact leaves_pure ⟨hb.1, fun _ => accept?_eq_none (by decide) heof hnone⟩
      · -- The statement between is followed by `else`, so it needs none itself.
        rename_i t' ts₄ h₄ ht'
        obtain ⟨hts, ht'⟩ := accept?_eq_some ht'
        have hclos : ¬ body.EndsOpen :=
          fun hopen => hb.2 hopen (by simp [hts, kindAt, current, ht'])
        refine (leaves_stmt ts₄).bind fun ⟨other, ts₅, h₅⟩ hoth => ?_
        exact leaves_pure ⟨⟨hb.1, hclos, hoth.1⟩, hoth.2⟩
    · refine (leaves_true _).bind fun ⟨cond, ts₂, h₂⟩ _ => ?_
      exact (leaves_stmt ts₂).bind fun _ hb => leaves_pure hb
    · exact leaves_refuse _ _ _
    · exact leaves_simple _
termination_by (ts.length, 0)

theorem leaves_stmts (method : Bool) (ts : List Token) :
    (stmts eof method ts).Leaves fun ss _ => Stmt.ElseNearestList ss := by
  rw [stmts]
  split
  · exact leaves_pure trivial
  · refine (leaves_stmt ts).bind fun ⟨s, ts₁, h₁⟩ hs => ?_
    exact (leaves_stmts method ts₁).bind fun _ hss => leaves_pure ⟨hs.1, hss⟩
termination_by (ts.length, 1)

end

/-- Every `else` of the member belongs to the nearest `if`. -/
def Member.ElseNearest : Member → Prop
  | .field _ => True
  | .method m => Stmt.ElseNearestList m.body

theorem leaves_method (isPrivate isStatic : Bool) (ty : Ty) (n : Token) (ts : List Token) :
    (method eof isPrivate isStatic ty n ts).Leaves fun m _ => m.ElseNearest := by
  iterate 3 refine (leaves_true _).bind fun ⟨_, _, _⟩ _ => ?_
  refine (leaves_stmts heof true _).bind fun ⟨body, ts₄, h₄⟩ hbody => ?_
  iterate 2 refine (leaves_true _).bind fun ⟨_, _, _⟩ _ => ?_
  exact leaves_pure hbody

theorem leaves_member (ts : List Token) :
    (member eof ts).Leaves fun m _ => m.ElseNearest := by
  iterate 2 refine (leaves_true _).bind fun ⟨_, _, _⟩ _ => ?_
  simp only
  split
  · exact leaves_pure trivial
  · exact (leaves_method heof _ _ _ _ _).bind fun _ hm => leaves_pure hm

theorem leaves_memberList (ts : List Token) :
    (memberList eof ts).Leaves fun ms _ => ∀ m ∈ ms, m.ElseNearest := by
  rw [memberList]
  split
  · exact leaves_pure (List.forall_mem_nil _)
  · refine (leaves_member heof ts).bind ?_
    rintro ⟨m, ts₁, h₁⟩ hm
    refine (leaves_memberList ts₁).bind ?_
    rintro ⟨ms, ts₂, h₂⟩ hms
    exact leaves_pure (List.forall_mem_cons.2 ⟨hm, hms⟩)
termination_by ts.length

theorem leaves_cls (ts : List Token) :
    (cls eof ts).Leaves fun c _ => c.ElseNearest := by
  iterate 3 refine (leaves_true _).bind fun ⟨_, _, _⟩ _ => ?_
  refine (leaves_memberList heof _).bind fun ⟨ms, ts₄, h₄⟩ hms => ?_
  refine (leaves_true _).bind fun _ _ => leaves_pure fun m hm => ?_
  obtain ⟨a, ha, hm⟩ := List.mem_filterMap.1 hm
  cases a with
  | field f => cases hm
  | method m => exact Option.some.inj hm ▸ hms _ ha

theorem classes_nearest (h : classes eof ts = .ok cs) :
    ∀ c ∈ cs, c.ElseNearest := by
  obtain ⟨c, rest, hlt, cs', hc, hcs, rfl⟩ | ⟨hk, rfl⟩ := classes_eq_ok h
  · exact List.forall_mem_cons.2 ⟨leaves_cls heof ts _ hc, classes_nearest hcs⟩
  · exact nofun
termination_by ts.length

end Tree.Parse

end MiniJam
