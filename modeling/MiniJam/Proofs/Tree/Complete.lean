import Mathlib.Logic.ExistsUnique
import MiniJam.Proofs.Tree.Nearest

/-!
# What is in the grammar is read

`Attempt.Reads` says of an attempt that it succeeds, with what it gives and what it leaves.  Tokens
that make up a tree of the grammar are read as that tree, whatever comes after them, as long as it
does not continue the tree.

Operators and members are repeated to the left in the grammar and read by loops that carry what was
read so far.  The statements about them are therefore about any way to go on: if the loop that starts
with a tree gives a result, then so does reading the tokens of the tree and what follows them.
-/

namespace MiniJam

open List Operator

namespace Tree.Parse

def Attempt.Reads {α : Type} {n : Nat} (x : Attempt α n) (a : α) (rest : List Token) : Prop :=
  ∃ h, x = .ok ⟨a, rest, h⟩

namespace Attempt

variable {α β : Type} {n k : Nat} {a : α} {b : β} {r s : List Token}

theorem Reads.bind {x : Attempt α n} {f : Reading α n → Attempt β k} (hx : x.Reads a r)
    (hf : ∀ h, Reads (f ⟨a, r, h⟩) b s) : Reads (x >>= f) b s := by
  obtain ⟨h, rfl⟩ := hx
  exact hf h

theorem reads_ok (h : r.length < n) : Reads (.ok ⟨a, r, h⟩ : Attempt α n) a r := ⟨h, rfl⟩

theorem reads_pure (h : r.length < n) : Reads (pure ⟨a, r, h⟩ : Attempt α n) a r := ⟨h, rfl⟩

end Attempt

open Attempt

variable {eof : Token}

variable {t o c s : Token} {ts rest rs es : List Token} {n : Nat} {e : Expr} {ty : Ty}
  {ps : List ParamDecl} {isPrivate isStatic : Bool}

theorem reads_expect (ht : t.kind = k) (ts : List Token) : (expect eof k (t :: ts)).Reads t ts := by
  unfold expect
  rw [accept?_cons ht]
  exact reads_ok _

/-! ### First tokens -/

def StartsWith (ks : List Kind) (ts : List Token) : Prop := ∃ t us, ts = t :: us ∧ t.kind ∈ ks

namespace StartsWith

variable {ks : List Kind} {ts : List Token}

section

variable (h : StartsWith ks ts)

include h

theorem append (us : List Token) : StartsWith ks (ts ++ us) := by
  obtain ⟨t, rest, rfl, ht⟩ := h
  exact ⟨t, rest ++ us, rfl, ht⟩

theorem kindAt_ne (hk : k ∉ ks) : kindAt eof ts ≠ k := by
  obtain ⟨t, rest, rfl, ht⟩ := h
  exact fun heq => hk (heq ▸ ht)

theorem accept?_eq_none (hk : k ∉ ks) : accept? k ts = none := by
  obtain ⟨t, rest, rfl, ht⟩ := h
  exact accept?_of_ne t fun heq => hk (heq ▸ ht)

theorem mono (hks : ks ⊆ ks') : StartsWith ks' ts := by
  obtain ⟨t, rest, rfl, ht⟩ := h
  exact ⟨t, rest, rfl, hks ht⟩

end

end StartsWith

def refKinds : List Kind := [.id, .kwThis]

def exprKinds : List Kind :=
  [.not, .minus, .num, .kwTrue, .kwFalse, .lparen, .kwNew, .id, .kwThis]

def typeKinds : List Kind := [.kwBoolean, .kwInt, .id]

mutual

theorem startsWith_stem {r : Ref} {ts : List Token} (h : r.Stem ts) : StartsWith refKinds ts := by
  match h with
  | .this ht | .id ht => exact ⟨_, [], rfl, by simp [ht, refKinds]⟩
  | .member hr _ _ => exact (startsWith_ref hr).append _

theorem startsWith_ref {r : Ref} {ts : List Token} (h : r.Derives ts) : StartsWith refKinds ts := by
  match h with
  | .stem hr => exact startsWith_stem hr
  | .elem hr _ _ _ =>
    rw [append_assoc]
    exact (startsWith_stem hr).append _

end

theorem startsWith_call {c : Call} (h : c.Derives ts) : StartsWith refKinds ts := by
  cases h with
  | plain hr _ _ => exact (startsWith_ref hr).append _
  | args hr _ _ _ =>
    rw [append_assoc]
    exact (startsWith_ref hr).append _

theorem startsWith_expr {n : Nat} {e : Expr} {ts : List Token} (h : Expr.Derives n e ts) :
    StartsWith exprKinds ts := by
  cases h with
  | lift he => exact startsWith_expr he
  | binary hl _ _ _ => exact (startsWith_expr hl).append _
  | unary hop ht _ =>
    refine ⟨_, _, rfl, ?_⟩
    obtain rfl | rfl := hop <;> simp [ht, kind, exprKinds]
  | num ht | tru ht | fals ht => exact ⟨_, _, rfl, by simp [ht, exprKinds]⟩
  | paren ho _ _ => exact ⟨_, _, rfl, by simp [ho, exprKinds]⟩
  | ref hr => exact (startsWith_ref hr).mono (by decide)
  | call hc => exact (startsWith_call hc).mono (by decide)
  | newObject hn _ _ _ | newInts hn _ _ _ _ | newObjects hn _ _ _ _ =>
    exact ⟨_, _, rfl, by simp [hn, exprKinds]⟩

theorem startsWith_args {es : List Expr} (h : Expr.DerivesList es ts) :
    StartsWith exprKinds ts := by
  cases h with
  | one he => exact startsWith_expr he
  | more he _ _ => exact (startsWith_expr he).append _

theorem startsWith_type (h : ty.Derives ts) : StartsWith typeKinds ts := by
  cases h <;> exact ⟨_, _, rfl, by simp [*, typeKinds]⟩

/-! ### Types -/

theorem reads_type (h : ty.Derives ts)
    (hrest : kindAt eof rest ≠ .lsquare) : (type eof (ts ++ rest)).Reads ty rest := by
  have plain (elem : Ty) : (brackets eof elem rest).Reads elem rest := by
    unfold brackets
    rw [accept?_of_ne eof hrest]
    exact reads_ok _
  have array (elem : Ty) {l r : Token} (hl : l.kind = .lsquare) (hr : r.kind = .rsquare) :
      (brackets eof elem (l :: r :: rest)).Reads (.array elem) rest := by
    unfold brackets
    rw [accept?_cons hl]
    exact (reads_expect hr rest).bind fun _ => reads_pure _
  cases h with
  | boolean ht =>
    simp only [singleton_append, type, ht]
    exact reads_ok _
  | int ht =>
    simp only [singleton_append, type, ht]
    exact (plain .int).bind fun _ => reads_pure _
  | cls ht =>
    simp only [singleton_append, type, ht]
    exact (plain (.cls _)).bind fun _ => reads_pure _
  | intArray ht hl hr =>
    simp only [cons_append, nil_append, type, ht]
    exact (array .int hl hr).bind fun _ => reads_pure _
  | clsArray ht hl hr =>
    simp only [cons_append, nil_append, type, ht]
    exact (array (.cls _) hl hr).bind fun _ => reads_pure _

/-! ### Expressions -/

/-- The tokens do not continue an expression of a level. -/
structure Stops (eof : Token) (n : Nat) (ts : List Token) : Prop where
  lsquare : kindAt eof ts ≠ .lsquare
  dot : kindAt eof ts ≠ .dot
  lparen : kindAt eof ts ≠ .lparen
  operator : ∀ l < n, operator? l (kindAt eof ts) = none

theorem Stops.mono (h : Stops eof n ts) (hk : k ≤ n) : Stops eof k ts :=
  ⟨h.lsquare, h.dot, h.lparen, fun l hl => h.operator l (Nat.lt_of_lt_of_le hl hk)⟩

theorem stops_operator {op : Operator} (hn : op.level = n + 1)
    (ht : t.kind = op.kind) (ts : List Token) : Stops eof n (t :: ts) where
  lsquare := by rw [kindAt_cons, ht]; cases op <;> nofun
  dot := by rw [kindAt_cons, ht]; cases op <;> nofun
  lparen := by rw [kindAt_cons, ht]; cases op <;> nofun
  operator := by
    intro l hl
    rw [Option.eq_none_iff_forall_ne_some]
    intro op' hop'
    obtain ⟨hkind, hlev⟩ := operator?_eq_some_iff.1 hop'
    obtain rfl : op' = op := kind_injective (hkind.trans ht)
    omega

def closingKinds : List Kind := [.rparen, .rsquare, .semicolon, .comma]

theorem stops_closing (ht : t.kind ∈ closingKinds) (n : Nat) (ts : List Token) :
    Stops eof n (t :: ts) := by
  have hts : StartsWith closingKinds (t :: ts) := ⟨t, ts, rfl, ht⟩
  refine ⟨hts.kindAt_ne (by decide), hts.kindAt_ne (by decide), hts.kindAt_ne (by decide), ?_⟩
  intro l _
  rw [Option.eq_none_iff_forall_ne_some]
  intro op hop
  rw [kindAt_cons, operator?_eq_some_iff] at hop
  rw [← hop.1] at ht
  cases op <;> revert ht <;> decide

theorem reads_operations_of_stops (h : operator? n (kindAt eof ts) = none)
    (e : Expr) : (operations eof n e ts).Reads e ts := by
  cases ts with
  | nil =>
    rw [operations]
    exact reads_ok _
  | cons t ts =>
    rw [kindAt_cons] at h
    simp only [operations, h]
    exact reads_ok _

theorem reads_members_of_ne (h : kindAt eof ts ≠ .dot) (r : Ref) :
    (members eof r ts).Reads r ts := by
  rw [members, accept?_of_ne eof h]
  exact reads_ok _

/-- How the tokens of an expression of a level are read: with the operators of the level after
them. -/
def ReadsExpr (eof : Token) (e : Expr) (ts : List Token) : Nat → Prop
  | 0 => ∀ rest, Stops eof 0 rest → (unary eof (ts ++ rest)).Reads e rest
  | n + 1 => ∀ rest a rest', Stops eof n rest → (operations eof n e rest).Reads a rest' →
      (binary eof (n + 1) (ts ++ rest)).Reads a rest'

theorem ReadsExpr.binary (h : ReadsExpr eof e ts n) (hr : Stops eof n rest) :
    (binary eof n (ts ++ rest)).Reads e rest := by
  cases n with
  | zero =>
    rw [Parse.binary]
    exact h rest hr
  | succ n =>
    exact h rest e rest (hr.mono (Nat.le_succ n))
      (reads_operations_of_stops (hr.operator n (Nat.lt_succ_self n)) e)

theorem ReadsExpr.expr (h : ReadsExpr eof e ts loosest) (ht : t.kind ∈ closingKinds)
    (rest : List Token) : (expr eof (ts ++ t :: rest)).Reads e (t :: rest) := by
  rw [Parse.expr]
  exact h.binary (stops_closing ht _ _)

theorem ReadsExpr.lift (h : ReadsExpr eof e ts n) : ReadsExpr eof e ts (n + 1) := by
  intro rest a rest' hrest hloop
  rw [Parse.binary]
  exact (h.binary hrest).bind fun _ => hloop.bind fun _ => reads_pure _

theorem ReadsExpr.binary_op {op : Operator} (hl : ReadsExpr eof lhs ls (n + 1))
    (hn : op.level = n + 1) (ht : t.kind = op.kind) (hr : ReadsExpr eof rhs rs n) :
    ReadsExpr eof (.binary op lhs rhs .error) (ls ++ t :: rs) (n + 1) := by
  intro rest a rest' hrest hloop
  rw [append_assoc, cons_append]
  refine hl (t :: (rs ++ rest)) a rest' (stops_operator hn ht _) ?_
  have hop : operator? n t.kind = some op := operator?_eq_some_iff.2 ⟨ht.symm, hn⟩
  simp only [operations, hop]
  exact (hr.binary hrest).bind fun _ => hloop.bind fun _ => reads_pure _

theorem unary_eq_primary (hnot : kindAt eof ts ≠ .not)
    (hmin : kindAt eof ts ≠ .minus) : unary eof ts = primary eof ts := by
  rw [unary.eq_def]
  split
  · rfl
  · split
    · exact absurd (by assumption) hnot
    · exact absurd (by assumption) hmin
    · rfl

theorem readsExpr_primary
    (hsta : ∀ rest, kindAt eof (ts ++ rest) ≠ .not ∧ kindAt eof (ts ++ rest) ≠ .minus)
    (h : ∀ rest, Stops eof 0 rest → (primary eof (ts ++ rest)).Reads e rest) :
    ReadsExpr eof e ts 0 := by
  intro rest hrest
  rw [unary_eq_primary (hsta rest).1 (hsta rest).2]
  exact h rest hrest

theorem reads_arraySize (he : ReadsExpr eof e es loosest) (ho : o.kind = .lsquare)
    (hc : c.kind = .rsquare) (start : Span) (elem : Ty) (rest : List Token) :
    (arraySize eof start elem (o :: (es ++ c :: rest))).Reads (.newArray start elem e .error)
      rest := by
  rw [arraySize]
  refine (reads_expect ho _).bind fun _ => ?_
  refine (he.expr (by simp [hc, closingKinds]) rest).bind fun _ => ?_
  exact (reads_expect hc rest).bind fun _ => reads_pure _

theorem reads_primary_ref (hts : StartsWith refKinds ts) {r : Ref}
    (hr : (reference eof ts).Reads r rest) :
    (kindAt eof rest ≠ .lparen → (primary eof ts).Reads (.ref r) rest) ∧
      (kindAt eof rest = .lparen → ∀ c rest', (call eof r rest).Reads c rest' →
        (primary eof ts).Reads (.call c) rest') := by
  obtain ⟨t, us, rfl, ht⟩ := hts
  have ht' : t.kind = .id ∨ t.kind = .kwThis := by simpa [refKinds] using ht
  constructor
  · intro hrest
    obtain ht | ht := ht' <;>
    · simp only [primary, ht]
      refine hr.bind fun _ => ?_
      simp only [hrest, if_false]
      exact reads_pure _
  · intro hrest c rest' hc
    obtain ht | ht := ht' <;>
    · simp only [primary, ht]
      refine hr.bind fun _ => ?_
      simp only [hrest, if_true]
      exact hc.bind fun _ => reads_pure _

mutual

theorem reads_stem {r : Ref} {ts : List Token} (h : r.Stem ts) (rest : List Token)
    (hidx : (index eof r rest).Reads r₁ rest₁) (hmem : (members eof r₁ rest₁).Reads r₂ rest₂) :
    (reference eof (ts ++ rest)).Reads r₂ rest₂ := by
  match h with
  | .this ht | .id ht =>
    simp only [singleton_append, reference, ht]
    exact hidx.bind fun _ => hmem.bind fun _ => reads_pure _
  | .member hr hd hn =>
    rw [append_assoc]
    refine reads_ref hr _ (by simp [hd]) ?_
    rw [cons_append, singleton_append, members, accept?_cons hd]
    refine (reads_expect hn rest).bind fun _ => ?_
    exact hidx.bind fun _ => hmem.bind fun _ => reads_pure _

theorem reads_ref {r : Ref} {ts : List Token} (h : r.Derives ts) (rest : List Token)
    (hrest : kindAt eof rest ≠ .lsquare) (hmem : (members eof r rest).Reads r' rest') :
    (reference eof (ts ++ rest)).Reads r' rest' := by
  match h with
  | .stem hr =>
    refine reads_stem hr rest ?_ hmem
    rw [index, accept?_of_ne eof hrest]
    exact reads_ok _
  | .elem hr ho he hc =>
    rw [append_assoc, append_assoc, cons_append]
    refine reads_stem hr _ ?_ hmem
    rw [index, accept?_cons ho]
    refine ((reads_level he).expr (by simp [hc, closingKinds]) rest).bind fun _ => ?_
    exact (reads_expect hc rest).bind fun _ => reads_pure _

theorem reads_level {n : Nat} {e : Expr} {ts : List Token} (h : Expr.Derives n e ts) :
    ReadsExpr eof e ts n := by
  match h with
  | .lift he => exact (reads_level he).lift
  | .binary hl hn ht hr => exact (reads_level hl).binary_op hn ht (reads_level hr)
  | .unary hop ht he =>
    intro rest hrest
    have hopd := reads_level he rest hrest
    obtain rfl | rfl := hop <;>
    · rw [kind] at ht
      simp only [cons_append, unary, ht]
      exact hopd.bind fun _ => reads_pure _
  | .num ht | .tru ht | .fals ht =>
    refine readsExpr_primary (by simp [ht]) fun rest _ => ?_
    simp only [singleton_append, primary, ht]
    exact reads_ok _
  | .paren ho he hc =>
    refine readsExpr_primary (by simp [ho]) fun rest _ => ?_
    rw [append_assoc, cons_append]
    simp only [primary, ho]
    refine ((reads_level he).expr (by simp [hc, closingKinds]) rest).bind fun _ => ?_
    exact (reads_expect hc rest).bind fun _ => reads_pure _
  | .ref hr =>
    have hts := startsWith_ref hr
    refine readsExpr_primary (fun rest => ⟨(hts.append rest).kindAt_ne (by decide),
      (hts.append rest).kindAt_ne (by decide)⟩) fun rest hrest => ?_
    exact (reads_primary_ref (hts.append rest)
      (reads_ref hr rest hrest.lsquare (reads_members_of_ne hrest.dot _))).1 hrest.lparen
  | .call hc =>
    have hts := startsWith_call hc
    refine readsExpr_primary (fun rest => ⟨(hts.append rest).kindAt_ne (by decide),
      (hts.append rest).kindAt_ne (by decide)⟩) fun rest hrest => ?_
    obtain ⟨r, rest₁, hr, hk, hcall⟩ := reads_call hc rest
    exact (reads_primary_ref (hts.append rest) hr).2 hk _ _ hcall
  | .newObject hn ht ho hc =>
    refine readsExpr_primary (by simp [hn]) fun rest _ => ?_
    simp only [cons_append, nil_append, primary, hn, newExpr, ht, accept?_cons ho]
    refine Reads.bind ?_ fun _ => reads_pure _
    exact (reads_expect hc rest).bind fun _ => reads_pure _
  | .newInts hn ht ho he hc =>
    refine readsExpr_primary (by simp [hn]) fun rest _ => ?_
    rw [append_assoc, cons_append, cons_append, cons_append]
    simp only [primary, hn, newExpr, ht]
    refine Reads.bind ?_ fun _ => reads_pure _
    exact (reads_arraySize (reads_level he) ho hc _ .int rest).bind fun _ => reads_pure _
  | .newObjects (o := o) hn ht ho he hc =>
    refine readsExpr_primary (by simp [hn]) fun rest _ => ?_
    have hnone (us : List Token) : accept? .lparen (o :: us) = none :=
      accept?_of_ne eof (by simp [ho])
    rw [append_assoc, cons_append, cons_append, cons_append]
    simp only [primary, hn, newExpr, ht, hnone]
    refine Reads.bind ?_ fun _ => reads_pure _
    exact (reads_arraySize (reads_level he) ho hc _ (.cls _) rest).bind fun _ => reads_pure _

theorem reads_args {es : List Expr} {ts : List Token} (h : Expr.DerivesList es ts) {c : Token}
    (hc : c.kind = .rparen) (rest : List Token) :
    (arguments eof (ts ++ c :: rest)).Reads es (c :: rest) := by
  match h with
  | .one he =>
    rw [arguments]
    refine ((reads_level he).expr (by simp [hc, closingKinds]) rest).bind fun _ => ?_
    simp only
    rw [accept?_of_ne eof (by simp [hc])]
    exact reads_pure _
  | .more he ht hargs =>
    rw [append_assoc, cons_append, arguments]
    refine ((reads_level he).expr (by simp [ht, closingKinds]) _).bind fun _ => ?_
    simp only [accept?_cons ht]
    exact (reads_args hargs hc rest).bind fun _ => reads_pure _

theorem reads_call {c : Call} {ts : List Token} (h : c.Derives ts) (rest : List Token) :
    ∃ r rest₁, (reference eof (ts ++ rest)).Reads r rest₁ ∧ kindAt eof rest₁ = .lparen ∧
      (call eof r rest₁).Reads c rest := by
  match h with
  | .plain (r := r) (o := o) (c := c) hr ho hc =>
    refine ⟨r, o :: c :: rest, ?_, ho, ?_⟩
    · rw [append_assoc]
      exact reads_ref hr _ (by simp [ho]) (reads_members_of_ne (by simp [ho]) _)
    · rw [call]
      refine (reads_expect ho _).bind fun _ => ?_
      simp only [accept?_cons hc]
      exact reads_pure _
  | .args (r := r) (o := o) (c := c) hr ho ha hc =>
    rename_i as
    refine ⟨r, o :: (as ++ c :: rest), ?_, ho, ?_⟩
    · rw [append_assoc, append_assoc]
      exact reads_ref hr _ (by simp [ho]) (reads_members_of_ne (by simp [ho]) _)
    · rw [call]
      refine (reads_expect ho _).bind fun _ => ?_
      have hnone : accept? .rparen (as ++ c :: rest) = none :=
        ((startsWith_args ha).append _).accept?_eq_none (by decide)
      simp only [hnone]
      refine (reads_args ha hc rest).bind fun _ => ?_
      exact (reads_expect hc rest).bind fun _ => reads_pure _

end

theorem reads_expr (h : Expr.Derives loosest e ts)
    (ht : t.kind ∈ closingKinds) (rest : List Token) :
    (expr eof (ts ++ t :: rest)).Reads e (t :: rest) := (reads_level h).expr ht rest

/-! ### Statements -/

def stmtKinds : List Kind := [.lcurly, .kwIf, .kwWhile, .kwBoolean, .kwInt, .id, .kwThis]

theorem startsWith_stmt {s : Stmt} (h : s.Derives ts) : StartsWith stmtKinds ts := by
  cases h with
  | block ho => exact ⟨_, _, rfl, by simp [ho, stmtKinds]⟩
  | decl hty =>
    rw [append_assoc]
    exact ((startsWith_type hty).append _).mono (by decide)
  | assign hr =>
    rw [append_assoc]
    exact ((startsWith_ref hr).append _).mono (by decide)
  | call hc => exact ((startsWith_call hc).append _).mono (by decide)
  | ifThen hi | ifElse hi => exact ⟨_, _, rfl, by simp [hi, stmtKinds]⟩
  | loop hw => exact ⟨_, _, rfl, by simp [hw, stmtKinds]⟩

theorem startsDecl_type (h : ty.Derives ts) {n : Token}
    (hn : n.kind = .id) (rest : List Token) : startsDecl eof (ts ++ n :: rest) = true := by
  cases h <;> simp [startsDecl, *]

/-- What comes after a name does not make it the start of a declaration. -/
def NoName (eof : Token) (ts : List Token) : Prop :=
  kindAt eof ts ≠ .id ∧ (kindAt eof ts = .lsquare → kindAt eof ts.tail ≠ .rsquare)

mutual

theorem startsDecl_stem {r : Ref} {ts : List Token} (h : r.Stem ts) {rest : List Token}
    (hrest : NoName eof rest) : startsDecl eof (ts ++ rest) = false := by
  match h with
  | .this ht => simp [startsDecl, ht]
  | .id ht =>
    simp only [singleton_append, startsDecl, ht]
    split
    · exact absurd (by assumption) hrest.1
    · simpa using hrest.2 (by assumption)
    · rfl
  | .member hr hd hn =>
    rw [append_assoc]
    exact startsDecl_ref hr ⟨by simp [hd], by simp [hd]⟩

theorem startsDecl_ref {r : Ref} {ts : List Token} (h : r.Derives ts) {rest : List Token}
    (hrest : NoName eof rest) : startsDecl eof (ts ++ rest) = false := by
  match h with
  | .stem hr => exact startsDecl_stem hr hrest
  | .elem hr ho he hc =>
    rw [append_assoc, append_assoc]
    exact startsDecl_stem hr
      ⟨by simp [ho], fun _ => ((startsWith_expr he).append _).kindAt_ne (by decide)⟩

end

theorem startsDecl_call {c : Call} (h : c.Derives ts) (rest : List Token) :
    startsDecl eof (ts ++ rest) = false := by
  cases h with
  | plain hr ho hc =>
    rw [append_assoc]
    exact startsDecl_ref hr ⟨by simp [ho], by simp [ho]⟩
  | args hr ho hargs hc =>
    rw [append_assoc, append_assoc]
    exact startsDecl_ref hr ⟨by simp [ho], by simp [ho]⟩

theorem reads_condition (he : Expr.Derives loosest e es) (ho : o.kind = .lparen)
    (hc : c.kind = .rparen) (rest : List Token) :
    (condition eof (o :: (es ++ c :: rest))).Reads e rest := by
  refine (reads_expect ho _).bind fun _ => ?_
  refine (reads_expr he (by simp [hc, closingKinds]) rest).bind fun _ => ?_
  exact (reads_expect hc rest).bind fun _ => reads_pure _

theorem stmt_eq_simple (h : StartsWith [.kwBoolean, .kwInt, .id, .kwThis] ts) :
    stmt eof ts = simple eof ts := by
  obtain ⟨t, us, rfl, ht⟩ := h
  have hk : t.kind = .kwBoolean ∨ t.kind = .kwInt ∨ t.kind = .id ∨ t.kind = .kwThis := by
    simpa using ht
  obtain hk | hk | hk | hk := hk <;> simp only [stmt, hk]

theorem reads_decl (hty : ty.Derives ts) {n a : Token} (hn : n.kind = .id) (ha : a.kind = .assign)
    (he : Expr.Derives loosest e es) (hs : s.kind = .semicolon) (rest : List Token) :
    (simple eof (ts ++ n :: a :: (es ++ s :: rest))).Reads (.decl ⟨n.span, n.spelling, ty⟩ e)
      rest := by
  unfold simple
  simp only [startsDecl_type hty hn, if_true]
  refine (reads_type hty (by simp [hn])).bind fun _ => ?_
  refine (reads_expect hn _).bind fun _ => (reads_expect ha _).bind fun _ => ?_
  refine (reads_expr he (by simp [hs, closingKinds]) rest).bind fun _ => ?_
  exact (reads_expect hs rest).bind fun _ => reads_pure _

theorem reads_assign {r : Ref} (hr : r.Derives rs) {a : Token} (ha : a.kind = .assign)
    (he : Expr.Derives loosest e es) (hs : s.kind = .semicolon) (rest : List Token) :
    (simple eof (rs ++ a :: (es ++ s :: rest))).Reads (.assign r e) rest := by
  have hdecl : startsDecl eof (rs ++ a :: (es ++ s :: rest)) = false :=
    startsDecl_ref hr ⟨by simp [ha], by simp [ha]⟩
  unfold simple
  simp only [hdecl, Bool.false_eq_true, if_false]
  refine (reads_ref hr _ (by simp [ha]) (reads_members_of_ne (by simp [ha]) _)).bind fun _ => ?_
  simp only [accept?_cons ha]
  refine (reads_expr he (by simp [hs, closingKinds]) rest).bind fun _ => ?_
  exact (reads_expect hs rest).bind fun _ => reads_pure _

theorem reads_callStmt {c : Call} (hc : c.Derives cs) (hs : s.kind = .semicolon)
    (rest : List Token) : (simple eof (cs ++ s :: rest)).Reads (.call c) rest := by
  obtain ⟨r, rest₁, hr, hk, hcall⟩ : ∃ r rest₁, (reference eof (cs ++ s :: rest)).Reads r rest₁ ∧
      kindAt eof rest₁ = .lparen ∧ (call eof r rest₁).Reads c (s :: rest) := reads_call hc _
  unfold simple
  simp only [startsDecl_call hc, Bool.false_eq_true, if_false]
  refine hr.bind fun _ => ?_
  simp only [accept?_of_ne eof (show kindAt eof rest₁ ≠ .assign by simp [hk]), hk, if_true]
  exact hcall.bind fun _ => (reads_expect hs rest).bind fun _ => reads_pure _

mutual

theorem reads_stmt {s : Stmt} {ts : List Token} (h : s.Derives ts) (hnear : s.ElseNearest)
    {rest : List Token} (hrest : s.EndsOpen → kindAt eof rest ≠ .kwElse) :
    (stmt eof (ts ++ rest)).Reads s rest := by
  match h with
  | .block (c := c) ho hb hc =>
    rw [append_assoc, cons_append]
    simp only [stmt, ho]
    have hend : kindAt eof (c :: rest) = .rcurly := hc
    refine (reads_stmts hb hnear false (.inl hend)).bind fun _ => ?_
    exact (reads_expect hc rest).bind fun _ => reads_pure _
  | .decl hty hn ha he hs =>
    rw [append_assoc, append_assoc, cons_append, cons_append,
      stmt_eq_simple (((startsWith_type hty).append _).mono (by decide))]
    exact reads_decl hty hn ha he hs rest
  | .assign hr ha he hs =>
    rw [append_assoc, append_assoc, cons_append,
      stmt_eq_simple (((startsWith_ref hr).append _).mono (by decide))]
    exact reads_assign hr ha he hs rest
  | .call hc hs =>
    rw [append_assoc, stmt_eq_simple (((startsWith_call hc).append _).mono (by decide))]
    exact reads_callStmt hc hs rest
  | .ifThen hi ho hcond hc hb =>
    rw [append_assoc, cons_append, cons_append]
    simp only [stmt, hi]
    refine (reads_condition hcond ho hc _).bind fun _ => ?_
    refine (reads_stmt hb hnear fun _ => hrest trivial).bind fun _ => ?_
    simp only [accept?_of_ne eof (hrest trivial)]
    exact reads_pure _
  | .ifElse hi ho hcond hc hb ht hoth =>
    rw [append_assoc, append_assoc, cons_append, cons_append]
    simp only [stmt, hi]
    refine (reads_condition hcond ho hc _).bind fun _ => ?_
    refine (reads_stmt hb hnear.1 fun hopen => absurd hopen hnear.2.1).bind fun _ => ?_
    simp only [cons_append, accept?_cons ht]
    exact (reads_stmt hoth hnear.2.2 hrest).bind fun _ => reads_pure _
  | .loop hw ho hcond hc hb =>
    rw [append_assoc, cons_append, cons_append]
    simp only [stmt, hw]
    refine (reads_condition hcond ho hc _).bind fun _ => ?_
    exact (reads_stmt hb hnear hrest).bind fun _ => reads_pure _

theorem reads_stmts {ss : List Stmt} {ts : List Token} (h : Stmt.DerivesList ss ts)
    (hn : Stmt.ElseNearestList ss) (method : Bool) {rest : List Token}
    (hr : kindAt eof rest = .rcurly ∨ method = true ∧ kindAt eof rest = .kwReturn) :
    (stmts eof method (ts ++ rest)).Reads ss rest := by
  match h with
  | .nil =>
    rw [nil_append, stmts]
    simp only [hr, if_true]
    exact reads_ok _
  | .cons hs hss =>
    rename_i s ss ts us
    -- The statement after, or what is after all statements, does not start with `else`.
    have hend : ∀ {us vs}, Stmt.DerivesList us vs → kindAt eof (vs ++ rest) ≠ .kwElse := by
      intro us vs hus
      cases hus with
      | nil => obtain hk | ⟨-, hk⟩ := hr <;> simp [hk]
      | cons hu _ =>
        rw [append_assoc]
        exact ((startsWith_stmt hu).append _).kindAt_ne (by decide)
    have hsta := (startsWith_stmt hs).append (us ++ rest)
    rw [append_assoc, stmts, if_neg]
    · refine (reads_stmt hs hn.1 fun _ => hend hss).bind fun _ => ?_
      exact (reads_stmts hss hn.2 method hr).bind fun _ => reads_pure _
    · rintro (hk | ⟨-, hk⟩)
      · exact hsta.kindAt_ne (by decide) hk
      · exact hsta.kindAt_ne (by decide) hk

end

/-! ### Declarations -/

theorem startsWith_params (h : ParamDecl.DerivesList ps ts) : StartsWith typeKinds ts := by
  cases h with
  | one hty | more hty => exact (startsWith_type hty).append _

theorem reads_params (h : ParamDecl.DerivesList ps ts) (hc : c.kind = .rparen) (rest : List Token) :
    (params eof (ts ++ c :: rest)).Reads ps (c :: rest) := by
  induction h with
  | one hty hn =>
    rw [append_assoc, singleton_append, params]
    refine (reads_type hty (by simp [hn])).bind fun _ => ?_
    refine (reads_expect hn _).bind fun _ => ?_
    simp only [accept?_of_ne eof (show kindAt eof (c :: rest) ≠ .comma by simp [hc])]
    exact reads_pure _
  | more hty hn ht _ ih =>
    rw [append_assoc, cons_append, cons_append, params]
    refine (reads_type hty (by simp [hn])).bind fun _ => ?_
    refine (reads_expect hn _).bind fun _ => ?_
    simp only [accept?_cons ht]
    exact ih.bind fun _ => reads_pure _

theorem reads_result {e : Option Expr} (h : MethodDecl.ResultDerives e ts)
    (hc : c.kind = .rcurly) (rest : List Token) : (result eof (ts ++ c :: rest)).Reads e (c :: rest) := by
  cases h with
  | none =>
    unfold result
    rw [nil_append, accept?_of_ne eof (by simp [hc])]
    exact reads_ok _
  | plain ht hs =>
    unfold result
    simp only [cons_append, nil_append, accept?_cons ht, accept?_cons hs]
    refine (reads_pure _).bind fun _ => ?_
    simp only [kindAt_cons, hc, if_true]
    exact reads_pure _
  | value ht he hs =>
    rename_i t s e es
    rw [append_assoc, cons_append]
    unfold result
    have hnone : accept? .semicolon (es ++ s :: c :: rest) = none :=
      ((startsWith_expr he).append _).accept?_eq_none (by decide)
    simp only [accept?_cons ht, singleton_append, hnone]
    refine Reads.bind (a := some e) (r := c :: rest) ?_ fun _ => ?_
    · refine (reads_expr he (by simp [hs, closingKinds]) _).bind fun _ => ?_
      exact (reads_expect hs _).bind fun _ => reads_pure _
    · simp only [kindAt_cons, hc, if_true]
      exact reads_pure _

theorem reads_method {n : Token} {body : List Stmt} {e : Option Expr}
    (hpar : ParamDecl.DerivesAll ps us) (ho : o.kind = .lcurly)
    (hbody : Stmt.DerivesList body bs) (hnear : Stmt.ElseNearestList body)
    (he : MethodDecl.ResultDerives e rs) (hc : c.kind = .rcurly) (rest : List Token) :
    (method eof isPrivate isStatic ty n (us ++ o :: (bs ++ (rs ++ c :: rest)))).Reads
      (.method ⟨n.span, n.spelling, ty, isPrivate, isStatic, ps, body, e⟩) rest := by
  have hend : kindAt eof (rs ++ c :: rest) = .rcurly ∨
      true = true ∧ kindAt eof (rs ++ c :: rest) = .kwReturn := by
    cases he <;> simp [*]
  obtain ⟨p, vs, q, rfl, hp, hq, hps⟩ : ∃ p vs q, us = p :: (vs ++ [q]) ∧ p.kind = .lparen ∧
      q.kind = .rparen ∧ (ps = [] ∧ vs = [] ∨ ParamDecl.DerivesList ps vs) := by
    cases hpar with
    | none ho hc => exact ⟨_, [], _, rfl, ho, hc, .inl ⟨rfl, rfl⟩⟩
    | some ho hps hc => exact ⟨_, _, _, rfl, ho, hc, .inr hps⟩
  rw [cons_append, append_assoc]
  refine (reads_expect hp _).bind fun _ => ?_
  refine Reads.bind (a := ps) (r := o :: (bs ++ (rs ++ c :: rest))) ?_ fun _ => ?_
  · obtain ⟨rfl, rfl⟩ | hps := hps
    · simp only [nil_append, singleton_append, accept?_cons hq]
      exact reads_pure _
    · have hnone := ((startsWith_params hps).append
        ([q] ++ o :: (bs ++ (rs ++ c :: rest)))).accept?_eq_none (k := .rparen) (by decide)
      simp only [hnone]
      refine (reads_params hps hq _).bind fun _ => ?_
      exact (reads_expect hq _).bind fun _ => reads_pure _
  · refine (reads_expect ho _).bind fun _ => ?_
    refine (reads_stmts hbody hnear true hend).bind fun _ => ?_
    refine (reads_result he hc rest).bind fun _ => ?_
    exact (reads_expect hc rest).bind fun _ => reads_pure _

theorem reads_memberType (h : ty.MemberDerives ts)
    (hrest : kindAt eof rest ≠ .lsquare) : (memberType eof (ts ++ rest)).Reads ty rest := by
  unfold memberType
  cases h with
  | void ht =>
    simp only [singleton_append, accept?_cons ht]
    exact reads_ok _
  | type hty =>
    rw [((startsWith_type hty).append _).accept?_eq_none (by decide)]
    exact reads_type hty hrest

def memberTypeKinds : List Kind := .kwVoid :: typeKinds

theorem startsWith_memberType (h : ty.MemberDerives ts) : StartsWith memberTypeKinds ts := by
  cases h with
  | void ht => exact ⟨_, _, rfl, by simp [ht, memberTypeKinds]⟩
  | type hty => exact (startsWith_type hty).mono (by decide)

/-- The first tokens of members without a visibility. -/
def plainMemberKinds : List Kind := .kwStatic :: memberTypeKinds

def memberKinds : List Kind := .kwPublic :: .kwPrivate :: plainMemberKinds

theorem visibility_eq (hv : VisibilityDerives isPrivate vs) (hts : StartsWith plainMemberKinds ts) :
    ∃ hlt, visibility (vs ++ ts) = ⟨isPrivate, ts, hlt⟩ := by
  have hpriv : accept? .kwPrivate ts = none := hts.accept?_eq_none (by decide)
  have hpub : accept? .kwPublic ts = none := hts.accept?_eq_none (by decide)
  cases hv with
  | absent => simp [visibility, optional, hpriv, hpub]
  | isPublic ht =>
    rename_i t
    have hnone : accept? .kwPrivate (t :: ts) = none := accept?_of_ne t (by simp [ht])
    exact ⟨by rw [length_append]; omega, by simp [visibility, optional, hnone, accept?_cons ht]⟩
  | isPrivate ht => exact ⟨by rw [length_append]; omega, by simp [visibility, accept?_cons ht]⟩

theorem static_eq (hs : StaticDerives isStatic ss) (hts : StartsWith memberTypeKinds ts) :
    ∃ hlt, optional .kwStatic (ss ++ ts) = ⟨isStatic, ts, hlt⟩ := by
  have hnone : accept? .kwStatic ts = none := hts.accept?_eq_none (by decide)
  cases hs with
  | absent => simp [optional, hnone]
  | isStatic ht => exact ⟨by rw [length_append]; omega, by simp [optional, accept?_cons ht]⟩

theorem startsWith_modifiers (hv : VisibilityDerives isPrivate vs)
    (hs : StaticDerives isStatic ss) (hts : StartsWith memberTypeKinds ts) :
    StartsWith plainMemberKinds (ss ++ ts) ∧ StartsWith memberKinds (vs ++ (ss ++ ts)) := by
  have hplai : StartsWith plainMemberKinds (ss ++ ts) := by
    cases hs with
    | absent => exact hts.mono (by decide)
    | isStatic ht => exact ⟨_, _, rfl, by simp [ht, plainMemberKinds]⟩
  refine ⟨hplai, ?_⟩
  cases hv with
  | absent => exact hplai.mono (by decide)
  | isPublic ht | isPrivate ht => exact ⟨_, _, rfl, by simp [ht, memberKinds]⟩

/-- What comes after the name of a member says whether it is a field. -/
theorem reads_member {m : Member} (hv : VisibilityDerives isPrivate vs)
    (hs : StaticDerives isStatic ss) (hty : ty.MemberDerives ts) (ht : t.kind = .id)
    (h : (∃ s, us = s :: rest ∧ s.kind = .semicolon ∧
        m = .field ⟨t.span, t.spelling, ty, isPrivate, isStatic⟩) ∨
      kindAt eof us ≠ .semicolon ∧ (method eof isPrivate isStatic ty t us).Reads m rest) :
    kindAt eof (vs ++ (ss ++ (ts ++ t :: us))) ≠ .rcurly ∧
      (member eof (vs ++ (ss ++ (ts ++ t :: us)))).Reads m rest := by
  have hts := (startsWith_memberType hty).append (t :: us)
  have hm := startsWith_modifiers hv hs hts
  obtain ⟨hlt, hvis⟩ := visibility_eq hv hm.1
  obtain ⟨hlt', hstat⟩ := static_eq hs hts
  refine ⟨hm.2.kindAt_ne (by decide), ?_⟩
  unfold member
  rw [hvis]
  dsimp only
  rw [hstat]
  refine (reads_memberType hty (by simp [ht])).bind fun _ => (reads_expect ht _).bind fun _ => ?_
  obtain ⟨s, rfl, hsemi, rfl⟩ | ⟨hne, hmeth⟩ := h
  · simp only [accept?_cons hsemi]
    exact reads_pure _
  · simp only [accept?_of_ne eof hne]
    exact hmeth.bind fun _ => reads_pure _

theorem reads_field (eof : Token) {f : FieldDecl} (h : f.Derives ts) (rest : List Token) :
    kindAt eof (ts ++ rest) ≠ .rcurly ∧ (member eof (ts ++ rest)).Reads (.field f) rest := by
  obtain ⟨hv, hs, hty, hn, hsemi⟩ := h
  rw [append_assoc, append_assoc, append_assoc]
  exact reads_member hv hs hty hn (.inl ⟨_, rfl, hsemi, rfl⟩)

theorem reads_methodDecl (eof : Token) {m : MethodDecl} (h : m.Derives ts)
    (hnear : Stmt.ElseNearestList m.body) (rest : List Token) :
    kindAt eof (ts ++ rest) ≠ .rcurly ∧ (member eof (ts ++ rest)).Reads (.method m) rest := by
  obtain ⟨hv, hs, hty, hn, hpar, ho, hbody, hres, hc⟩ := h
  rw [append_assoc, append_assoc, append_assoc, append_assoc, append_assoc, append_assoc]
  refine reads_member hv hs hty hn (.inr ⟨?_, reads_method hpar ho hbody hnear hres hc rest⟩)
  cases hpar with
  | none ho | some ho => simp [ho]

theorem reads_memberList (eof : Token) (h : ClassDecl.MembersDerive fs ms ts)
    (hn : ∀ m ∈ ms, Stmt.ElseNearestList m.body) (hc : c.kind = .rcurly) (rest : List Token) :
    ∃ members, members.filterMap (·.field?) = fs ∧ members.filterMap (·.method?) = ms ∧
      (memberList eof (ts ++ c :: rest)).Reads members (c :: rest) := by
  induction h with
  | nil =>
    refine ⟨[], rfl, rfl, ?_⟩
    have hend : kindAt eof (c :: rest) = .rcurly := hc
    rw [nil_append, memberList, if_pos hend]
    exact reads_ok _
  | field hf _ ih =>
    rename_i f _ _ _ us _
    obtain ⟨members, rfl, rfl, hr⟩ := ih hn
    obtain ⟨hk, hfld⟩ := reads_field eof hf (us ++ c :: rest)
    refine ⟨.field f :: members, rfl, rfl, ?_⟩
    rw [append_assoc, memberList, if_neg hk]
    exact hfld.bind fun _ => hr.bind fun _ => reads_pure _
  | method hm _ ih =>
    rename_i m _ _ _ us _
    obtain ⟨hbody, hn⟩ := forall_mem_cons.1 hn
    obtain ⟨members, rfl, rfl, hr⟩ := ih hn
    obtain ⟨hk, hmeth⟩ := reads_methodDecl eof hm hbody (us ++ c :: rest)
    refine ⟨.method m :: members, rfl, rfl, ?_⟩
    rw [append_assoc, memberList, if_neg hk]
    exact hmeth.bind fun _ => hr.bind fun _ => reads_pure _

theorem reads_cls {c : ClassDecl} (h : c.Derives ts) (hnear : c.ElseNearest) (rest : List Token) :
    kindAt eof (ts ++ rest) = .kwClass ∧ (cls eof (ts ++ rest)).Reads c rest := by
  obtain ⟨hk, hn, ho, hms, hc⟩ := h
  obtain ⟨members, rfl, rfl, hread⟩ := reads_memberList eof hms hnear hc rest
  refine ⟨hk, ?_⟩
  rw [append_assoc, cons_append, cons_append, cons_append]
  refine (reads_expect hk _).bind fun _ => (reads_expect hn _).bind fun _ => ?_
  refine (reads_expect ho _).bind fun _ => hread.bind fun _ => ?_
  exact (reads_expect hc rest).bind fun _ => reads_pure _

theorem classes_of_derives (heof : eof.kind = .eof) (h : ClassDecl.DerivesList cs ts)
    (hn : ∀ c ∈ cs, c.ElseNearest) : classes eof ts = .ok cs := by
  induction h with
  | nil => simp [classes, kindAt, current, heof]
  | cons hc _ ih =>
    obtain ⟨hn, hn'⟩ := forall_mem_cons.1 hn
    obtain ⟨hk, hlt, hread⟩ := reads_cls hc hn _
    rw [classes, if_pos hk, hread]
    simp only [bind, Except.bind, ih hn']
    rfl

end Tree.Parse

/-! ### Sources -/

namespace Token

open Text

def Lexeme.Inner : Lexeme → Prop
  | .token kind _ _ _ => kind ≠ .eof
  | .gap .. | .unclosed _ => True

theorem inner_one {kind : Kind} (h : kind ≠ .eof) (r : Rune) (rest : List Rune) :
    (one kind r rest).Inner := h

theorem inner_stray (r : Rune) (rest : List Rune) : (stray r rest).Inner := nofun

variable {c : Char} {two : Kind}

theorem inner_pair (h : two ≠ .eof) {r : Rune} {rest : List Rune}
    (halon : ∀ rest, (alone r rest).Inner) : (pair c two r rest alone).Inner := by
  unfold pair
  split
  · split
    · exact h
    · exact halon _
  · exact halon _

theorem inner_slash (cur : Cursor) (r : Rune) (rest : List Rune) : (slash cur r rest).Inner := by
  have hdiv (rest : List Rune) : (one .div r rest).Inner := inner_one (by decide) r rest
  unfold slash
  split
  · dsimp only
    split
    · trivial
    · split
      · split <;> trivial
      · exact hdiv _
  · exact hdiv _

theorem single?_ne_eof {kind : Kind} (h : single? c = some kind) : kind ≠ .eof := by
  rintro rfl
  unfold single? at h
  split at h
  case h_11 => split at h <;> simp_all
  all_goals cases h

theorem beforeEquals?_ne_eof (h : beforeEquals? c = some (two, alone)) :
    two ≠ .eof ∧ alone ≠ .eof := by
  unfold beforeEquals? at h
  split at h <;> cases h <;> exact ⟨nofun, nofun⟩

theorem doubled?_ne_eof (h : doubled? c = some two) : two ≠ .eof := by
  unfold doubled? at h
  split at h <;> cases h <;> nofun

theorem ofWord_ne_eof (s : String) : Kind.ofWord s ≠ .eof := by
  unfold Kind.ofWord
  cases h : Kind.keywords.lookup s with
  | none => nofun
  | some k =>
    obtain ⟨before, after, hspl, -⟩ := lookup_eq_some_iff.1 h
    have hall : ∀ x ∈ Kind.keywords, x.2 ≠ .eof := by decide
    exact hall (s, k) (by simp [hspl])

theorem inner_lexeme (cur : Cursor) (r : Rune) (rest : List Rune) : (lexeme cur r rest).Inner := by
  unfold lexeme
  split
  · trivial
  split
  · exact inner_one (single?_ne_eof (by assumption)) _ _
  · have h := beforeEquals?_ne_eof (by assumption)
    exact inner_pair h.1 fun _ => inner_one h.2 _ _
  · exact inner_pair (doubled?_ne_eof (by assumption)) fun _ => inner_stray _ _
  · split
    · exact inner_slash _ _ _
    · split
      · exact (nofun : Kind.num ≠ .eof)
      · split
        · exact ofWord_ne_eof _
        · exact inner_stray _ _

theorem scanFrom_kind_ne_eof (file : String) (cur : Cursor) (rs : List Rune) :
    ∀ t ∈ (scanFrom file cur rs).1, t.kind ≠ .eof := by
  fun_induction scanFrom file cur rs with
  | case1 => exact nofun
  | case2 _ _ _ _ _ _ ih => exact ih
  | case3 cur r rest kind spelling width rest' hlex tokens stop hscan ih =>
    have hkind : kind ≠ .eof := by
      have hinn := inner_lexeme cur r rest
      rwa [hlex] at hinn
    rw [hscan] at ih
    exact forall_mem_cons.2 ⟨hkind, ih⟩
  | case4 =>
    intro t ht
    rw [mem_singleton.1 ht]
    nofun

end Token

namespace Package

def tokens (file : String) (source : List UInt8) : List Token :=
  (Token.scan file source).1 ++ [(Token.scan file source).2]

/-- A package is read from a source exactly if it is made up of the tokens of the source and every
`else` in it belongs to the nearest `if`. -/
theorem parse_eq_ok_iff {file : String} {source : List UInt8} :
    parse file source = .ok p ↔ Derives file p (tokens file source) ∧ p.ElseNearest := by
  have heof : (Token.scan file source).2.kind = .eof := rfl
  have hts : ∀ t ∈ (Token.scan file source).1, t.kind ≠ .eof := Token.scanFrom_kind_ne_eof file _ _
  have hpar : parse file source =
      (Tree.Parse.classes (Token.scan file source).2 (Token.scan file source).1).map
        (⟨file, ·, none, none⟩) := rfl
  rw [hpar]
  constructor
  · intro h
    cases hcs : Tree.Parse.classes (Token.scan file source).2 (Token.scan file source).1 with
    | error d =>
      rw [hcs] at h
      cases h
    | ok cs =>
      rw [hcs] at h
      cases h
      exact ⟨.mk (Tree.Parse.classes_derive heof hts hcs) heof, Tree.Parse.classes_nearest heof hcs⟩
  · rintro ⟨hp, hnear⟩
    generalize hall : tokens file source = all at hp
    obtain ⟨hcs, -⟩ := hp
    obtain ⟨rfl, -⟩ := append_inj' hall rfl
    rw [Tree.Parse.classes_of_derives heof hcs hnear]
    rfl

/-- The parser accepts exactly the grammar: a source is read if it has no invalid token and its tokens
make up some package, and otherwise one diagnostic is given.  The package that is read is the one in
which every `else` belongs to the nearest `if`. -/
theorem parse_exact (file : String) (source : List UInt8) :
    ((∃ p, parse file source = .ok p) ↔ Token.AllValid (tokens file source) ∧
      ∃ p, Derives file p (tokens file source)) ∧
    ((∃! d, parse file source = .error d) ↔ ¬ ∃ p, parse file source = .ok p) ∧
    ∀ p, parse file source = .ok p ↔ Derives file p (tokens file source) ∧ p.ElseNearest := by
  refine ⟨⟨?_, ?_⟩, ?_, fun p => parse_eq_ok_iff⟩
  · rintro ⟨p, h⟩
    have hp := (parse_eq_ok_iff.1 h).1
    exact ⟨hp.allValid, p, hp⟩
  · rintro ⟨-, p, hp⟩
    obtain ⟨p', hp', hnear⟩ := hp.exists_nearest
    exact ⟨p', parse_eq_ok_iff.2 ⟨hp', hnear⟩⟩
  · cases parse file source with
    | error d => simp
    | ok p => simp

end Package

end MiniJam
