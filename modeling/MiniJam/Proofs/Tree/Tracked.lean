import MiniJam.Proofs.Tree.Reader

/-!
# What is read and where reading stops

There is one lemma for every function that reads: it follows the grammar.  Each function is first
written as a reader that is put together from others.  Those for expressions call each other on fewer
tokens, and so do those for statements; their lemmas take as a hypothesis that fewer tokens are read as
they should be (`TracksBelow`, `StmtsBelow`).

The result is about classes up to the end (`classes_eq_error`): if they cannot be read, then the tokens
in front of the one that is reported can be completed to classes, and reading fails with the same report
whatever comes after it.
-/

namespace MiniJam

namespace Tree.Parse

open Reader Nat Operator

variable {eof : Token} {n : Nat} {ts : List Token}

/-! ### Types -/

theorem of_brackets (elem : Ty) : of (brackets eof elem) =
    ifNext .lsquare (fun _ => (of (expect eof .rsquare)).andThen fun _ => done (.array elem))
      (done elem) := by
  funext ts
  simp only [of, brackets, ifNext]
  cases accept? .lsquare ts with
  | none => rfl
  | some r =>
    dsimp only [Option.elim]
    exact outcome_bind fun _ => rfl

theorem tracks_brackets (elem : Ty) :
    (of (brackets eof elem)).Tracks eof n ts fun ty us => ty = elem ∧ us = [] ∨
      ∃ l r, ty = .array elem ∧ us = [l, r] ∧ l.kind = .lsquare ∧ r.kind = .rsquare := by
  rw [of_brackets]
  refine tracks_accept (tracks_done (.inl ⟨rfl, rfl⟩)) fun l us hl => ?_
  refine tracks_expect fun r us hr => ?_
  exact tracks_done (.inr ⟨l, r, rfl, rfl, hl, hr⟩)

theorem complete_type : ∃ ty us, Ty.Derives ty us := ⟨.int, [.ofKind .kwInt], .int rfl⟩

theorem tracks_type : (of (type eof)).Tracks eof n ts Ty.Derives := by
  refine Tracks.mono ?_ (le_succ n)
  cases ts with
  | nil => exact tracks_nil complete_type rfl
  | cons t us =>
    cases hk : t.kind
    case kwBoolean =>
      refine (tracks_done (.boolean hk)).cons fun us' => ?_
      simp only [of, type, hk]
      rfl
    case kwInt =>
      refine ((tracks_brackets .int).imp ?_).cons fun us' => ?_
      · rintro ty us (⟨rfl, rfl⟩ | ⟨l, r, rfl, rfl, hl, hr⟩)
        · exact .int hk
        · exact .intArray hk hl hr
      · simp only [of, type, hk]
        exact outcome_pass fun _ => rfl
    case id =>
      refine ((tracks_brackets (.cls t.spelling)).imp ?_).cons fun us' => ?_
      · rintro ty us (⟨rfl, rfl⟩ | ⟨l, r, rfl, rfl, hl, hr⟩)
        · exact .cls hk
        · exact .clsArray hk hl hr
      · simp only [of, type, hk]
        exact outcome_pass fun _ => rfl
    all_goals exact tracks_refused complete_type fun us' => by simp only [of, type, hk]; rfl

/-! ### Expressions -/

theorem operator?_eq_some_iff {n : Nat} {op : Operator} :
    operator? n k = some op ↔ op.kind = k ∧ op.level = n + 1 := by
  constructor
  · intro h
    unfold operator? at h
    split at h <;> cases h <;> exact ⟨rfl, rfl⟩
  · rintro ⟨rfl, hn⟩
    cases op <;> cases hn <;> rfl

theorem complete_expr (k : Nat) : ∃ e us, Expr.Derives k e us := by
  induction k with
  | zero => exact ⟨_, [.ofKind .num], .num rfl⟩
  | succ k ih =>
    obtain ⟨e, us, he⟩ := ih
    exact ⟨e, us, he.lift⟩

/-- Expressions of any level are followed on inputs of fewer than `n` tokens. -/
def TracksBelow (eof : Token) (n : Nat) : Prop :=
  ∀ k ts, (of (binary eof k)).Tracks eof n ts (Expr.Derives k)

namespace TracksBelow

theorem mono (h : TracksBelow eof n) (hm : m ≤ n) : TracksBelow eof m :=
  fun k ts => (h k ts).mono hm

theorem expr (h : TracksBelow eof n) :
    (of (expr eof)).Tracks eof n ts (Expr.Derives loosest) := by
  refine (h levels ts).of_eq fun ts' => ?_
  rw [of, Parse.expr]
  rfl

theorem unary (h : TracksBelow eof n) : (of (unary eof)).Tracks eof n ts (Expr.Derives 0) := by
  refine (h 0 ts).of_eq fun ts' => ?_
  rw [of, of, binary]

end TracksBelow

theorem of_arraySize (start : Span) (elem : Ty) : of (arraySize eof start elem) =
    (of (expect eof .lsquare)).andThen fun _ => (of (expr eof)).andThen fun size =>
      (of (expect eof .rsquare)).andThen fun _ => done (.newArray start elem size .error) := by
  funext ts
  rw [of, arraySize]
  exact outcome_bind fun _ => outcome_bind fun _ => outcome_bind fun _ => rfl

theorem tracks_arraySize (h : TracksBelow eof n) (start : Span) (elem : Ty) :
    (of (arraySize eof start elem)).Tracks eof n ts fun a us => ∃ o e es c,
      a = .newArray start elem e .error ∧ us = o :: es ++ [c] ∧ o.kind = .lsquare ∧
      Expr.Derives loosest e es ∧ c.kind = .rsquare := by
  rw [of_arraySize]
  refine tracks_expect fun o us ho => ?_
  refine h.expr.bind fun e rest es he => ?_
  refine tracks_expect fun c us hc => ?_
  exact tracks_done ⟨o, e, es, c, rfl, by simp, ho, he, hc⟩

theorem of_index (base : Ref) : of (index eof base) =
    ifNext .lsquare (fun _ => (of (expr eof)).andThen fun e =>
      (of (expect eof .rsquare)).andThen fun _ => done (.elem base e .error)) (done base) := by
  funext ts
  rw [of, index, ifNext]
  cases accept? .lsquare ts with
  | none => rfl
  | some r =>
    dsimp only [Option.elim]
    exact outcome_bind fun _ => outcome_bind fun _ => rfl

variable {base r : Ref} {bs rs : List Token} {t : Token}

theorem tracks_index (h : TracksBelow eof n) (hb : base.Stem bs) :
    (of (index eof base)).Tracks eof n ts fun r us => r.Derives (bs ++ us) := by
  rw [of_index]
  refine tracks_accept (tracks_done ?_) fun o us ho => ?_
  · simpa using Ref.Derives.stem hb
  refine h.expr.bind fun e rest es he => ?_
  refine tracks_expect fun c us hc => tracks_done ?_
  simpa using Ref.Derives.elem hb ho he hc

theorem of_members (base : Ref) : of (members eof base) =
    ifNext .dot (fun _ => (of (expect eof .id)).andThen fun name =>
      (of (index eof (.member base name.span name.spelling none false .error))).andThen fun r =>
        of (members eof r)) (done base) := by
  funext ts
  rw [of, members, ifNext]
  cases accept? .dot ts with
  | none => rfl
  | some r =>
    dsimp only [Option.elim]
    exact outcome_bind fun _ => outcome_bind fun _ => outcome_pass fun _ => rfl

theorem tracks_members (h : TracksBelow eof n) (hb : base.Derives bs) :
    (of (members eof base)).Tracks eof n ts fun r us => r.Derives (bs ++ us) := by
  have hdone : base.Derives (bs ++ []) := by simpa using hb
  induction n generalizing ts base bs with
  | zero => exact tracks_zero ⟨base, [], hdone⟩
  | succ n ih =>
    rw [of_members]
    refine tracks_ifNext (tracks_done hdone) fun d us hd => ?_
    have h := h.mono (le_succ n)
    refine tracks_expect fun name us hname => ?_
    refine (tracks_index h (.member hb hd hname)).bind fun r rest vs hr => ?_
    refine (ih h hr (by simpa using hr)).imp fun r' ws hr' => ?_
    simpa using hr'

theorem complete_ref : ∃ r us, Ref.Derives r us := ⟨_, [.ofKind .kwThis], .stem (.this rfl)⟩

def suffix (eof : Token) (base : Ref) : Reader Ref :=
  (of (index eof base)).andThen fun r => of (members eof r)

theorem tracks_suffix (h : TracksBelow eof n) (hbase : base.Stem bs) :
    (suffix eof base).Tracks eof n ts fun r us => r.Derives (bs ++ us) := by
  refine (tracks_index h hbase).bind fun r rest us hr => ?_
  exact (tracks_members h hr).imp fun r' vs hr' => by simpa using hr'

def firstRef? (t : Token) : Option Ref :=
  if t.kind = .kwThis then some (.this t.span .error)
  else if t.kind = .id then some (.id t.span t.spelling none .error)
  else none

theorem stem_of_firstRef (h : firstRef? t = some base) : base.Stem [t] := by
  unfold firstRef? at h
  split at h
  · cases h
    exact .this (by assumption)
  · split at h
    · cases h
      exact .id (by assumption)
    · cases h

theorem of_reference (h : firstRef? t = some base) (us : List Token) :
    of (reference eof) (t :: us) = suffix eof base us := by
  unfold firstRef? at h
  split at h
  · rename_i ht
    cases h
    rw [of, reference]
    simp only [ht]
    exact outcome_bind fun _ => outcome_pass fun _ => rfl
  · split at h
    · rename_i ht
      cases h
      rw [of, reference]
      simp only [ht]
      exact outcome_bind fun _ => outcome_pass fun _ => rfl
    · cases h

theorem reference_refuses (h : firstRef? t = none) (us : List Token) :
    of (reference eof) (t :: us) = refuse eof (t :: us) (expecting "reference") := by
  unfold firstRef? at h
  split at h
  · cases h
  · split at h
    · cases h
    · rw [of, reference.eq_def]
      dsimp only
      split
      · contradiction
      · contradiction
      · rfl

theorem tracks_reference (h : TracksBelow eof n) :
    (of (reference eof)).Tracks eof n ts Ref.Derives := by
  refine Tracks.mono ?_ (le_succ n)
  cases ts with
  | nil => exact tracks_nil complete_ref (by rw [of, reference]; rfl)
  | cons t us =>
    cases hb : firstRef? t with
    | none => exact tracks_refused complete_ref (reference_refuses hb)
    | some base => exact (tracks_suffix h (stem_of_firstRef hb)).cons (of_reference hb)

theorem of_arguments : of (arguments eof) = (of (expr eof)).andThen fun e =>
      ifNext .comma (fun _ => (of (arguments eof)).andThen fun es => done (e :: es)) (done [e]) := by
  funext ts
  rw [of, arguments]
  refine outcome_bind fun r => ?_
  obtain ⟨e, ts₁, h₁⟩ := r
  dsimp only [ifNext]
  cases accept? .comma ts₁ with
  | none => rfl
  | some r =>
    dsimp only [Option.elim]
    exact outcome_bind fun _ => rfl

theorem tracks_arguments (h : TracksBelow eof n) :
    (of (arguments eof)).Tracks eof n ts Expr.DerivesList := by
  induction n generalizing ts with
  | zero =>
    obtain ⟨e, us, he⟩ := complete_expr loosest
    exact tracks_zero ⟨[e], us, .one he⟩
  | succ n ih =>
    rw [of_arguments]
    refine h.expr.bind fun e rest es he => ?_
    refine tracks_ifNext (tracks_done (by simpa using Expr.DerivesList.one he)) fun t us ht => ?_
    refine (ih (h.mono (le_succ n))).bind fun args rest as hargs => tracks_done ?_
    simpa using Expr.DerivesList.more he ht hargs

theorem of_call (r : Ref) : of (call eof r) = (of (expect eof .lparen)).andThen fun _ =>
      ifNext .rparen (fun close => done (.mk r [] close.span none .error))
        ((of (arguments eof)).andThen fun args => (of (expect eof .rparen)).andThen fun close =>
          done (.mk r args close.span none .error)) := by
  funext ts
  rw [of, call]
  refine outcome_bind fun o => ?_
  obtain ⟨o, ts₁, h₁⟩ := o
  dsimp only [ifNext]
  cases accept? .rparen ts₁ with
  | none =>
    dsimp only [Option.elim]
    exact outcome_bind fun _ => outcome_bind fun _ => rfl
  | some r => rfl

theorem tracks_call (h : TracksBelow eof n) (hr : r.Derives rs) :
    (of (call eof r)).Tracks eof n ts fun c us => c.Derives (rs ++ us) := by
  rw [of_call]
  refine tracks_expect fun o us ho => ?_
  refine tracks_accept ?_ fun c us hc => tracks_done (.plain hr ho hc)
  refine (tracks_arguments h).bind fun args rest as hargs => ?_
  refine tracks_expect fun c us hc => tracks_done ?_
  simpa using Call.Derives.args hr ho hargs hc

theorem tracks_newExpr (h : TracksBelow eof n) (ht : t.kind = .kwNew) :
    (of (newExpr eof t.span)).Tracks eof n ts fun e us => Expr.Derives 0 e (t :: us) := by
  have hc : ∃ e us, Expr.Derives 0 e (t :: us) :=
    ⟨_, [.ofKind .id, .ofKind .lparen, .ofKind .rparen], .newObject ht rfl rfl rfl⟩
  refine Tracks.mono ?_ (le_succ n)
  cases ts with
  | nil => exact tracks_nil hc (by rw [of, newExpr]; rfl)
  | cons k us =>
    cases hk : k.kind
    case kwInt =>
      refine ((tracks_arraySize h t.span .int).imp ?_).cons fun us' => ?_
      · rintro _ _ ⟨o, e, es, c, rfl, rfl, ho, he, hc⟩
        exact .newInts ht hk ho he hc
      · simp only [of, newExpr, hk]
        exact outcome_pass fun _ => rfl
    case id =>
      have heq : ∀ us', of (newExpr eof t.span) (k :: us') =
          ifNext .lparen (fun _ => (of (expect eof .rparen)).andThen fun close =>
              done (.newObject (t.span.merge close.span) k.spelling none .error))
            (of (arraySize eof t.span (.cls k.spelling))) us' := by
        intro us'
        simp only [of, newExpr, hk, ifNext]
        cases accept? .lparen us' with
        | none => exact outcome_pass fun _ => rfl
        | some r =>
          dsimp only [Option.elim]
          exact outcome_bind fun _ => rfl
      refine Tracks.cons (tracks_accept ?_ fun o us ho => ?_) heq
      · refine (tracks_arraySize h t.span (.cls k.spelling)).imp ?_
        rintro _ _ ⟨o, e, es, c, rfl, rfl, ho, he, hc⟩
        exact .newObjects ht hk ho he hc
      · exact tracks_expect fun c us hc => tracks_done (.newObject ht hk ho hc)
    all_goals exact tracks_refused hc fun us' => by simp only [of, newExpr, hk]; rfl

def operand (eof : Token) (r : Ref) : Reader Expr :=
  ifKind eof (· = .lparen) ((of (call eof r)).andThen fun c => done (.call c)) (done (.ref r))

theorem tracks_operand (h : TracksBelow eof n) (hr : r.Derives rs) :
    (operand eof r).Tracks eof n ts fun e us => Expr.Derives 0 e (rs ++ us) := by
  refine tracks_ifKind (fun _ => ?_) fun _ => tracks_done (by simpa using Expr.Derives.ref hr)
  refine (tracks_call h hr).bind fun c rest us hc => tracks_done ?_
  simpa using Expr.Derives.call hc

theorem tracks_primary (h : TracksBelow eof n) :
    (of (primary eof)).Tracks eof (n + 1) ts (Expr.Derives 0) := by
  have hc := complete_expr 0
  cases ts with
  | nil => exact tracks_nil hc (by rw [of, primary]; rfl)
  | cons t us =>
    -- The first token starts a reference, which can be that of a method.
    have hn : ∀ base, firstRef? t = some base → (∀ us', primary eof (t :: us') = do
        let r ← reference eof (t :: us')
        if kindAt eof r.rest = .lparen then
          let c ← call eof r.value r.rest
          return ⟨.call c.value, c.rest, Nat.lt_trans c.lt r.lt⟩
        return ⟨.ref r.value, r.rest, r.lt⟩) →
        (of (primary eof)).Tracks eof (n + 1) (t :: us) (Expr.Derives 0) := by
      intro base hb heq
      have htrac : ((suffix eof base).andThen (operand eof)).Tracks eof n us
          fun e vs => Expr.Derives 0 e (t :: vs) := by
        refine (tracks_suffix h (stem_of_firstRef hb)).bind fun r rest rs hr => ?_
        exact (tracks_operand h hr).imp fun e vs he => by simpa using he
      refine htrac.cons fun us' => ?_
      rw [of, heq]
      refine outcome_andThen (of_reference hb us') fun r => ?_
      rw [operand, ifKind]
      split
      · exact outcome_bind fun _ => rfl
      · rfl
    cases hk : t.kind
    case num => exact (tracks_done (.num hk)).cons fun us' => by simp only [of, primary, hk]; rfl
    case kwTrue => exact (tracks_done (.tru hk)).cons fun us' => by simp only [of, primary, hk]; rfl
    case kwFalse => exact (tracks_done (.fals hk)).cons fun us' => by simp only [of, primary, hk]; rfl
    case lparen =>
      have heq : ∀ us', of (primary eof) (t :: us') = ((of (expr eof)).andThen fun e =>
          (of (expect eof .rparen)).andThen fun _ => done e) us' := by
        intro us'
        simp only [of, primary, hk]
        exact outcome_bind fun _ => outcome_bind fun _ => rfl
      refine Tracks.cons (h.expr.bind fun e rest es he => ?_) heq
      refine tracks_expect fun c us hc => tracks_done ?_
      simpa using Expr.Derives.paren hk he hc
    case kwNew =>
      refine (tracks_newExpr h hk).cons fun us' => ?_
      simp only [of, primary, hk]
      exact outcome_pass fun _ => rfl
    case id =>
      have hb : firstRef? t = some (.id t.span t.spelling none .error) := by
        simp [firstRef?, hk]
      exact hn _ hb fun us' => by simp only [primary, hk]
    case kwThis =>
      have hb : firstRef? t = some (.this t.span .error) := by simp [firstRef?, hk]
      exact hn _ hb fun us' => by simp only [primary, hk]
    all_goals exact tracks_refused hc fun us' => by simp only [of, primary, hk]; rfl

theorem tracks_unary (h : TracksBelow eof n) :
    (of (unary eof)).Tracks eof (n + 1) ts (Expr.Derives 0) := by
  -- What is not an operator is left for the operand.
  have hprim : (∀ ts', SameHead ts ts' → unary eof ts' = primary eof ts') →
      (of (unary eof)).Tracks eof (n + 1) ts (Expr.Derives 0) := by
    intro heq
    exact (tracks_primary h).congr fun ts' hs => congrArg _ (heq ts' hs)
  cases ts with
  | nil =>
    refine hprim fun ts' hs => ?_
    rw [hs.eq_nil, unary]
  | cons t us =>
    have hop : ∀ op, op = .not ∨ op = .minus → t.kind = op.kind → (∀ us', unary eof (t :: us') = do
        let r ← unary eof us'
        return ⟨.unary t.span op r.value .error, r.rest, lt_succ_of_lt r.lt⟩) →
        (of (unary eof)).Tracks eof (n + 1) (t :: us) (Expr.Derives 0) := by
      intro op hop ht heq
      have htrac : ((of (unary eof)).andThen fun e => done (.unary t.span op e .error)).Tracks eof n
          us fun e vs => Expr.Derives 0 e (t :: vs) := by
        refine h.unary.bind fun e rest es he => tracks_done ?_
        simpa using Expr.Derives.unary hop ht he
      refine htrac.cons fun us' => ?_
      rw [of, heq]
      exact outcome_bind fun _ => rfl
    cases hk : t.kind
    case not => exact hop .not (.inl rfl) hk fun us' => by simp only [unary, hk]
    case minus => exact hop .minus (.inr rfl) hk fun us' => by simp only [unary, hk]
    all_goals
      refine hprim fun ts' hs => ?_
      obtain ⟨us', rfl⟩ := hs.exists_cons
      simp [unary, hk]

theorem tracks_operations {n : Nat} {ts : List Token} (h : TracksBelow eof n) {level : Nat}
    (hlhs : Expr.Derives (level + 1) lhs ls) :
    (of (operations eof level lhs)).Tracks eof (n + 1) ts
      fun e us => Expr.Derives (level + 1) e (ls ++ us) := by
  have hd : ∀ {n : Nat} {ts : List Token}, (done lhs).Tracks eof n ts
      fun e us => Expr.Derives (level + 1) e (ls ++ us) := tracks_done (by simpa using hlhs)
  cases ts with
  | nil =>
    refine hd.congr fun ts' hs => ?_
    rw [hs.eq_nil, of, operations]
    rfl
  | cons t us =>
    cases hop : operator? level t.kind with
    | none =>
      refine hd.congr fun ts' hs => ?_
      obtain ⟨us', rfl⟩ := hs.exists_cons
      simp only [of, operations, hop]
      rfl
    | some op =>
      obtain ⟨ht, hlev⟩ := operator?_eq_some_iff.1 hop
      have heq : ∀ us', of (operations eof level lhs) (t :: us') =
          ((of (binary eof level)).andThen fun rhs =>
            of (operations eof level (.binary op lhs rhs .error))) us' := by
        intro us'
        simp only [of, operations, hop]
        exact outcome_bind fun _ => outcome_pass fun _ => rfl
      refine Tracks.cons ((h level us).bind fun rhs rest rs hrhs => ?_) heq
      have hlhs' := Expr.Derives.binary hlhs hlev ht.symm hrhs
      -- The loop goes on with fewer tokens, if there are any.
      cases n with
      | zero => exact tracks_zero ⟨_, [], by simpa using hlhs'⟩
      | succ n =>
        refine (tracks_operations (h.mono (le_succ n)) hlhs').imp fun e vs he => ?_
        simpa using he

theorem of_binary_succ (level : Nat) : of (binary eof (level + 1)) =
    (of (binary eof level)).andThen fun lhs => of (operations eof level lhs) := by
  funext ts
  rw [of, binary]
  exact outcome_bind fun _ => outcome_pass fun _ => rfl

theorem tracks_binary (h : TracksBelow eof n) (k : Nat) :
    (of (binary eof k)).Tracks eof (n + 1) ts (Expr.Derives k) := by
  induction k generalizing ts with
  | zero =>
    refine (tracks_unary h).of_eq fun ts' => ?_
    rw [of, of, binary]
  | succ level ih =>
    rw [of_binary_succ]
    exact ih.bind fun lhs rest ls hlhs => tracks_operations h hlhs.lift

theorem tracksBelow (n : Nat) : TracksBelow eof n := by
  induction n with
  | zero => exact fun k ts => tracks_zero (complete_expr k)
  | succ n ih => exact fun k ts => tracks_binary ih k

theorem tracks_expr : (of (expr eof)).Tracks eof n ts (Expr.Derives loosest) :=
  (tracksBelow n).expr

/-! ### Statements -/

theorem of_condition : of (condition eof) =
    (of (expect eof .lparen)).andThen fun _ => (of (expr eof)).andThen fun e =>
      (of (expect eof .rparen)).andThen fun _ => done e := by
  funext ts
  exact outcome_bind fun _ => outcome_bind fun _ => outcome_bind fun _ => rfl

theorem tracks_condition : (of (condition eof)).Tracks eof n ts fun e us => ∃ o es c,
    us = o :: es ++ [c] ∧ o.kind = .lparen ∧ Expr.Derives loosest e es ∧
      c.kind = .rparen := by
  rw [of_condition]
  refine tracks_expect fun o us ho => tracks_expr.bind fun e rest es he => ?_
  exact tracks_expect fun c us hc => tracks_done ⟨o, es, c, by simp, ho, he, hc⟩

def declaration (eof : Token) (ty : Ty) : Reader Stmt :=
  (of (expect eof .id)).andThen fun name => (of (expect eof .assign)).andThen fun _ =>
    (of (expr eof)).andThen fun e => (of (expect eof .semicolon)).andThen fun _ =>
      done (.decl ⟨name.span, name.spelling, ty⟩ e)

theorem tracks_declaration {ty : Ty} (hty : ty.Derives us) :
    (declaration eof ty).Tracks eof n ts fun s vs => Stmt.Derives s (us ++ vs) := by
  refine tracks_expect fun name _ hname => tracks_expect fun a _ ha => ?_
  refine tracks_expr.bind fun e rest es he => tracks_expect fun s _ hs => tracks_done ?_
  simpa using Stmt.Derives.decl hty hname ha he hs

def action (eof : Token) (r : Ref) : Reader Stmt :=
  ifNext .assign
    (fun _ => (of (expr eof)).andThen fun e => (of (expect eof .semicolon)).andThen fun _ =>
      done (.assign r e))
    (ifKind eof (· = .lparen)
      ((of (call eof r)).andThen fun c => (of (expect eof .semicolon)).andThen fun _ =>
        done (.call c))
      (refusal eof (expecting "`=' or `('")))

theorem tracks_action (hr : r.Derives rs) :
    (action eof r).Tracks eof n ts fun s vs => Stmt.Derives s (rs ++ vs) := by
  refine tracks_accept (tracks_ifKind (fun _ => ?_) fun _ => tracks_refusal ?_ _) fun a us ha => ?_
  · refine (tracks_call (tracksBelow n) hr).bind fun c rest us hc => ?_
    refine tracks_expect fun s _ hs => tracks_done ?_
    simpa using Stmt.Derives.call hc hs
  · let o := Token.ofKind .lparen
    let c := Token.ofKind .rparen
    let s := Token.ofKind .semicolon
    have hcall : Stmt.Derives (.call (.mk r [] c.span none .error)) (rs ++ [o, c] ++ [s]) :=
      .call (.plain hr rfl rfl) rfl
    exact ⟨_, [o, c, s], by simpa using hcall⟩
  · refine tracks_expr.bind fun e rest es he => tracks_expect fun s _ hs => tracks_done ?_
    simpa using Stmt.Derives.assign hr ha he hs

theorem simple_decl (h : startsDecl eof ts = true) :
    of (simple eof) ts = (of (type eof)).andThen (declaration eof) ts := by
  rw [of, simple, if_pos h]
  exact outcome_bind fun _ => outcome_bind fun _ => outcome_bind fun _ =>
    outcome_bind fun _ => outcome_bind fun _ => rfl

theorem simple_action (h : startsDecl eof ts = false) :
    of (simple eof) ts = (of (reference eof)).andThen (action eof) ts := by
  rw [of, simple, if_neg (by simp [h])]
  refine outcome_bind fun r => ?_
  obtain ⟨r, ts₁, h₁⟩ := r
  dsimp only [action, ifNext]
  cases accept? .assign ts₁ with
  | none =>
    dsimp only [Option.elim, ifKind]
    split
    · exact outcome_bind fun _ => outcome_bind fun _ => rfl
    · rfl
  | some a =>
    dsimp only [Option.elim]
    exact outcome_bind fun _ => outcome_bind fun _ => rfl

theorem complete_stmt : ∃ s us, Stmt.Derives s us :=
  ⟨_, [.ofKind .lcurly, .ofKind .rcurly], .block rfl .nil rfl⟩

/-- After a name at the start of a statement there is a second name, and the first one is a type. -/
theorem tracks_named (ht : t.kind = .id) (hk : kindAt eof ts = .id) :
    Tracks (fun us => of (simple eof) (t :: us)) eof n ts fun s us => Stmt.Derives s (t :: us) := by
  refine (tracks_declaration (.cls ht)).congr fun us hs => ?_
  have hus : kindAt eof us = .id := (hs.kindAt eof).trans hk
  have hdecl : startsDecl eof (t :: us) = true := by simp only [startsDecl, ht, hus]
  have hnone : accept? .lsquare us = none := accept?_of_ne eof (by rw [hus]; decide)
  have htype : of (type eof) (t :: us) = .ok (.cls t.spelling, us) := by
    simp only [of, type, ht, brackets, hnone]
    rfl
  rw [simple_decl hdecl, andThen, htype]
  rfl

/-- After a name at the start of a statement there is a bracket, which starts an index or is that of
an array type. -/
theorem tracks_bracketed {l : Token} (ht : t.kind = .id) (hl : l.kind = .lsquare) :
    Tracks (fun us => of (simple eof) (t :: l :: us)) eof n ts
      fun s us => Stmt.Derives s (t :: l :: us) := by
  have hstar : ∀ us, startsDecl eof (t :: l :: us) = decide (kindAt eof us = .rsquare) := by
    intro us
    simp only [startsDecl, ht, kindAt_cons, hl, List.tail_cons]
    rfl
  by_cases hk : kindAt eof ts = .rsquare
  · have htrac : ((of (expect eof .rsquare)).andThen fun _ =>
        declaration eof (.array (.cls t.spelling))).Tracks eof n ts
        fun s us => Stmt.Derives s (t :: l :: us) :=
      tracks_expect fun r _ hr => tracks_declaration (.clsArray ht hl hr)
    refine htrac.congr fun us hs => ?_
    have hd : startsDecl eof (t :: l :: us) = true := by
      rw [hstar, hs.kindAt]
      exact decide_eq_true hk
    have htype : of (type eof) (t :: l :: us) =
        (of (expect eof .rsquare)).andThen (fun _ => done (.array (.cls t.spelling))) us := by
      simp only [of, type, ht, brackets, accept?_cons hl]
      exact (outcome_pass fun _ => rfl).trans (outcome_bind fun _ => rfl)
    rw [simple_decl hd, andThen_congr htype, andThen_assoc]
    rfl
  · -- The bracket can only be that of an index, since nothing else has been looked at.
    let base : Ref := .id t.span t.spelling none .error
    have hb : firstRef? t = some base := by simp [firstRef?, ht, base]
    have htrac : ((of (expr eof)).andThen fun e => (of (expect eof .rsquare)).andThen fun _ =>
        (of (members eof (.elem base e .error))).andThen (action eof)).Tracks eof n ts
        fun s us => Stmt.Derives s (t :: l :: us) := by
      refine tracks_expr.bind fun e rest es he => tracks_expect fun c _ hc => ?_
      have helem := Ref.Derives.elem (stem_of_firstRef hb) hl he hc
      refine (tracks_members (tracksBelow n) helem).bind fun r rest rs hr => ?_
      exact (tracks_action hr).imp fun s us hs => by simpa using hs
    refine htrac.congr fun us hs => ?_
    have hd : startsDecl eof (t :: l :: us) = false := by
      rw [hstar, hs.kindAt]
      exact decide_eq_false hk
    have href : of (reference eof) (t :: l :: us) =
        ((of (expr eof)).andThen fun e => (of (expect eof .rsquare)).andThen fun _ =>
          of (members eof (.elem base e .error))) us := by
      have hidx : of (index eof base) (l :: us) =
          ((of (expr eof)).andThen fun e => (of (expect eof .rsquare)).andThen fun _ =>
            done (.elem base e .error)) us := by
        rw [of_index, ifNext, accept?_cons hl]
        rfl
      rw [of_reference hb, suffix, andThen_congr hidx, andThen_assoc]
      simp only [andThen_assoc]
      rfl
    rw [simple_action hd, andThen_congr href, andThen_assoc]
    simp [andThen_assoc]

theorem tracks_simple (heof : eof.kind = .eof) : (of (simple eof)).Tracks eof n ts Stmt.Derives := by
  refine Tracks.mono ?_ (le_succ n)
  cases ts with
  | nil => exact tracks_nil complete_stmt (by rw [simple_action rfl, andThen, of, reference]; rfl)
  | cons t us =>
    have hd : (∀ us', startsDecl eof (t :: us') = true) →
        (of (simple eof)).Tracks eof (n + 1) (t :: us) Stmt.Derives := by
      intro hstar
      have htrac : ((of (type eof)).andThen (declaration eof)).Tracks eof (n + 1) (t :: us)
          Stmt.Derives := tracks_type.bind fun ty rest vs hty => tracks_declaration hty
      refine htrac.congr fun ts' hs => ?_
      obtain ⟨us', rfl⟩ := hs.exists_cons
      exact simple_decl (hstar us')
    have hact : (∀ us', startsDecl eof (t :: us') = false) →
        (of (simple eof)).Tracks eof (n + 1) (t :: us) Stmt.Derives := by
      intro hstar
      have htrac : ((of (reference eof)).andThen (action eof)).Tracks eof (n + 1) (t :: us)
          Stmt.Derives :=
        (tracks_reference (tracksBelow _)).bind fun r rest rs hr => tracks_action hr
      refine htrac.congr fun ts' hs => ?_
      obtain ⟨us', rfl⟩ := hs.exists_cons
      exact simple_action (hstar us')
    cases hk : t.kind
    case kwInt => exact hd fun us' => by simp only [startsDecl, hk]
    case kwBoolean => exact hd fun us' => by simp only [startsDecl, hk]
    case id =>
      -- Whether the name is a type is seen from what comes next.
      by_cases hn : kindAt eof us = .id
      · exact (tracks_named hk hn).cons fun _ => rfl
      · by_cases hsqua : kindAt eof us = .lsquare
        · cases us with
          | nil =>
            rw [show kindAt eof [] = .eof from heof] at hsqua
            cases hsqua
          | cons l vs =>
            refine Tracks.cons ?_ fun _ => rfl
            exact ((tracks_bracketed hk hsqua).cons fun _ => rfl).mono (le_succ n)
        · let base : Ref := .id t.span t.spelling none .error
          have hb : firstRef? t = some base := by simp [firstRef?, hk, base]
          have htrac : ((suffix eof base).andThen (action eof)).Tracks eof n us
              fun s vs => Stmt.Derives s (t :: vs) := by
            refine (tracks_suffix (tracksBelow n) (stem_of_firstRef hb)).bind
              fun r rest rs hr => ?_
            exact (tracks_action hr).imp fun s vs hs => by simpa using hs
          refine Tracks.cons (htrac.congr fun us' hs => ?_) fun _ => rfl
          have hstar : startsDecl eof (t :: us') = false := by
            rw [← hs.kindAt eof] at hn hsqua
            simp [startsDecl, hk]
          rw [simple_action hstar, andThen_congr (of_reference hb us')]
    all_goals exact hact fun us' => by simp only [startsDecl, hk]

/-- Statements, and statements one after another, are followed on inputs of fewer than `n` tokens. -/
structure StmtsBelow (eof : Token) (n : Nat) : Prop where
  stmt : ∀ ts, (of (stmt eof)).Tracks eof n ts Stmt.Derives
  stmts : ∀ method ts, (of (stmts eof method)).Tracks eof n ts Stmt.DerivesList

theorem of_block (ht : t.kind = .lcurly) (us : List Token) :
    of (stmt eof) (t :: us) = ((of (stmts eof false)).andThen fun body =>
      (of (expect eof .rcurly)).andThen fun _ => done (.block t.span body)) us := by
  rw [of, stmt]
  simp only [ht]
  exact outcome_bind fun _ => outcome_bind fun _ => rfl

theorem of_branch (ht : t.kind = .kwIf) (us : List Token) :
    of (stmt eof) (t :: us) = ((of (condition eof)).andThen fun cond =>
      (of (stmt eof)).andThen fun body =>
        ifNext .kwElse (fun _ => (of (stmt eof)).andThen fun other =>
          done (.ifElse t.span cond body other)) (done (.ifThen t.span cond body))) us := by
  rw [of, stmt]
  simp only [ht]
  refine outcome_bind fun _ => outcome_bind fun r => ?_
  obtain ⟨body, ts₁, h₁⟩ := r
  dsimp only [ifNext]
  cases accept? .kwElse ts₁ with
  | none => rfl
  | some r =>
    dsimp only [Option.elim]
    exact outcome_bind fun _ => rfl

theorem of_loop (ht : t.kind = .kwWhile) (us : List Token) :
    of (stmt eof) (t :: us) = ((of (condition eof)).andThen fun cond =>
      (of (stmt eof)).andThen fun body => done (.loop t.span cond body)) us := by
  rw [of, stmt]
  simp only [ht]
  exact outcome_bind fun _ => outcome_bind fun _ => rfl

theorem tracks_stmt (heof : eof.kind = .eof) (h : StmtsBelow eof n) :
    (of (stmt eof)).Tracks eof (n + 1) ts Stmt.Derives := by
  cases ts with
  | nil =>
    refine (tracks_simple heof).congr fun ts' hs => ?_
    rw [hs.eq_nil, of, stmt]
    rfl
  | cons t us =>
    cases hk : t.kind
    case lcurly =>
      refine Tracks.cons ?_ (of_block hk)
      refine (h.stmts false us).bind fun body rest bs hb => ?_
      refine tracks_expect fun c _ hc => tracks_done ?_
      simpa using Stmt.Derives.block hk hb hc
    case kwIf =>
      refine Tracks.cons ?_ (of_branch hk)
      refine tracks_condition.bind ?_
      rintro cond rest _ ⟨o, es, c, rfl, ho, hcond, hc⟩
      refine (h.stmt _).bind fun body rest bs hb => ?_
      refine tracks_accept (tracks_done ?_) fun e _ he => ?_
      · simpa using Stmt.Derives.ifThen hk ho hcond hc hb
      · refine (h.stmt _).bind fun other rest ss hoth => tracks_done ?_
        simpa using Stmt.Derives.ifElse hk ho hcond hc hb he hoth
    case kwWhile =>
      refine Tracks.cons ?_ (of_loop hk)
      refine tracks_condition.bind ?_
      rintro cond rest _ ⟨o, es, c, rfl, ho, hcond, hc⟩
      refine (h.stmt _).bind fun body rest bs hb => tracks_done ?_
      simpa using Stmt.Derives.loop hk ho hcond hc hb
    case kwReturn =>
      refine tracks_refuse complete_stmt (fun _ => misplacedReturn) fun ts' hs => ?_
      obtain ⟨us', rfl⟩ := hs.exists_cons
      rw [of, stmt]
      simp only [hk]
      rfl
    all_goals
      refine (tracks_simple heof).congr fun ts' hs => ?_
      obtain ⟨us', rfl⟩ := hs.exists_cons
      rw [of, stmt]
      simp only [hk]
      rfl

theorem of_stmts (method : Bool) : of (stmts eof method) =
    ifKind eof (fun k => k = .rcurly ∨ (method ∧ k = .kwReturn)) (done [])
      ((of (stmt eof)).andThen fun s => (of (stmts eof method)).andThen fun ss =>
        done (s :: ss)) := by
  funext ts
  rw [of, stmts, ifKind]
  split
  · rfl
  · exact outcome_bind fun _ => outcome_bind fun _ => rfl

theorem tracks_stmts (heof : eof.kind = .eof) (h : StmtsBelow eof n) (method : Bool) :
    (of (stmts eof method)).Tracks eof (n + 1) ts Stmt.DerivesList := by
  have hne : ∀ s us, Stmt.Derives s us → us ≠ [] := by
    intro s us hs
    cases hs <;> simp
  rw [of_stmts]
  refine tracks_ifKind (fun _ => tracks_done .nil) fun _ => ?_
  refine (tracks_stmt heof h).bind_of_ne_nil hne fun s rest us hs => ?_
  refine (h.stmts method rest).bind fun ss rest vs hss => tracks_done ?_
  simpa using Stmt.DerivesList.cons hs hss

theorem stmtsBelow (heof : eof.kind = .eof) (n : Nat) : StmtsBelow eof n := by
  induction n with
  | zero => exact ⟨fun _ => tracks_zero complete_stmt, fun _ _ => tracks_zero ⟨[], [], .nil⟩⟩
  | succ n ih => exact ⟨fun _ => tracks_stmt heof ih, fun method _ => tracks_stmts heof ih method⟩

/-! ### Declarations -/

theorem of_params : of (params eof) =
    (of (type eof)).andThen fun ty => (of (expect eof .id)).andThen fun name =>
      ifNext .comma
        (fun _ => (of (params eof)).andThen fun ps => done (⟨name.span, name.spelling, ty⟩ :: ps))
        (done [⟨name.span, name.spelling, ty⟩]) := by
  funext ts
  rw [of, params]
  refine outcome_bind fun _ => outcome_bind fun r => ?_
  obtain ⟨name, ts₁, h₁⟩ := r
  dsimp only [ifNext]
  cases accept? .comma ts₁ with
  | none => rfl
  | some r =>
    dsimp only [Option.elim]
    exact outcome_bind fun _ => rfl

theorem tracks_params : (of (params eof)).Tracks eof n ts ParamDecl.DerivesList := by
  induction n generalizing ts with
  | zero =>
    refine tracks_zero ?_
    exact ⟨_, [.ofKind .kwInt, .ofKind .id], .one (.int rfl) rfl⟩
  | succ n ih =>
    rw [of_params]
    refine tracks_type.bind fun ty rest us hty => tracks_token fun name _ hn => ?_
    refine tracks_accept (tracks_done (.one hty hn)) fun c _ hc => ?_
    refine ih.bind fun ps rest vs hps => tracks_done ?_
    simpa using ParamDecl.DerivesList.more hty hn hc hps

def allParams (eof : Token) : Reader (List ParamDecl) :=
  ifNext .rparen (fun _ => done []) ((of (params eof)).andThen fun ps =>
    (of (expect eof .rparen)).andThen fun _ => done ps)

theorem tracks_allParams {o : Token} (ho : o.kind = .lparen) :
    (allParams eof).Tracks eof n ts fun ps us => ParamDecl.DerivesAll ps (o :: us) := by
  refine tracks_accept ?_ fun c _ hc => tracks_done (.none ho hc)
  refine tracks_params.bind fun ps rest us hps => tracks_expect fun c _ hc => tracks_done ?_
  simpa using ParamDecl.DerivesAll.some ho hps hc

/-- The value of a `return`, and the semicolon after it. -/
def returned (eof : Token) : Reader (Option Expr) :=
  ifNext .semicolon (fun _ => done none) ((of (expr eof)).andThen fun e =>
    (of (expect eof .semicolon)).andThen fun _ => done (some e))

theorem of_result : of (result eof) = ifNext .kwReturn (fun _ => (returned eof).andThen fun e =>
      ifKind eof (· = .rcurly) (done e) (refusal eof fun _ => misplacedReturn)) (done none) := by
  funext ts
  rw [of, result, ifNext]
  cases accept? .kwReturn ts with
  | none => rfl
  | some r =>
    obtain ⟨t, ts₁, h₁⟩ := r
    dsimp only [Option.elim]
    refine outcome_andThen ?_ fun r => ?_
    · dsimp only [returned, ifNext]
      cases accept? .semicolon ts₁ with
      | none =>
        dsimp only [Option.elim]
        exact outcome_bind fun _ => outcome_bind fun _ => rfl
      | some r => rfl
    · obtain ⟨e, ts₂, h₂⟩ := r
      dsimp only [ifKind]
      split <;> rfl

theorem tracks_result : (of (result eof)).Tracks eof n ts MethodDecl.ResultDerives := by
  rw [of_result]
  refine tracks_accept (tracks_done .none) fun t us ht => ?_
  have hret : (returned eof).Tracks eof n us
      fun e vs => MethodDecl.ResultDerives e (t :: vs) := by
    refine tracks_accept ?_ fun s _ hs => tracks_done (.plain ht hs)
    refine tracks_expr.bind fun e rest es he => tracks_expect fun s _ hs => tracks_done ?_
    simpa using MethodDecl.ResultDerives.value ht he hs
  refine hret.bind fun e rest vs he => ?_
  have hd : MethodDecl.ResultDerives e (t :: (vs ++ [])) := by simpa using he
  exact tracks_ifKind (fun _ => tracks_done hd) fun _ => tracks_refusal ⟨e, [], hd⟩ _

def Member.Derives : Member → List Token → Prop
  | .field f, ts => f.Derives ts
  | .method m, ts => m.Derives ts

theorem of_method (isPrivate isStatic : Bool) (ty : Ty) (name : Token) :
    of (method eof isPrivate isStatic ty name) =
    (of (expect eof .lparen)).andThen fun _ => (allParams eof).andThen fun ps =>
      (of (expect eof .lcurly)).andThen fun _ => (of (stmts eof true)).andThen fun body =>
        (of (result eof)).andThen fun e => (of (expect eof .rcurly)).andThen fun _ =>
          done (.method ⟨name.span, name.spelling, ty, isPrivate, isStatic, ps, body, e⟩) := by
  funext ts
  rw [of, method]
  refine outcome_bind fun r => ?_
  obtain ⟨o, ts₁, h₁⟩ := r
  refine outcome_andThen ?_ fun _ => outcome_bind fun _ => outcome_bind fun _ =>
    outcome_bind fun _ => outcome_bind fun _ => rfl
  dsimp only [allParams, ifNext]
  cases accept? .rparen ts₁ with
  | none =>
    dsimp only [Option.elim]
    exact outcome_bind fun _ => outcome_bind fun _ => rfl
  | some r => rfl

theorem tracks_method (heof : eof.kind = .eof) {isPrivate isStatic : Bool} {ty : Ty}
    {name : Token} (hv : VisibilityDerives isPrivate vs) (hs : StaticDerives isStatic ss)
    (hty : ty.MemberDerives us) (hname : name.kind = .id) :
    (of (method eof isPrivate isStatic ty name)).Tracks eof n ts
      fun m ws => m.Derives (vs ++ ss ++ us ++ name :: ws) := by
  rw [of_method]
  refine tracks_expect fun o _ ho => (tracks_allParams ho).bind fun params rest ps hpar => ?_
  refine tracks_expect fun b _ hb => ?_
  refine ((stmtsBelow heof n).stmts true _).bind fun body rest bs hbody => ?_
  refine tracks_result.bind fun e rest rs he => tracks_expect fun c _ hc => tracks_done ?_
  have h := MethodDecl.Derives.mk hv hs hty hname hpar hb hbody he hc
  simpa [Member.Derives] using h

theorem of_visibility : always visibility = ifNext .kwPrivate (fun _ => done true)
      (ifNext .kwPublic (fun _ => done false) (done false)) := by
  funext ts
  cases hpriv : accept? .kwPrivate ts with
  | some r => simp only [always, visibility, ifNext, hpriv]; rfl
  | none =>
    cases hpub : accept? .kwPublic ts with
    | some r | none => simp only [always, visibility, optional, ifNext, hpriv, hpub]; rfl

theorem tracks_visibility : (always visibility).Tracks eof n ts VisibilityDerives := by
  rw [of_visibility]
  refine tracks_accept (tracks_accept (tracks_done .absent) fun t _ ht => ?_) fun t _ ht => ?_
  · exact tracks_done (.isPublic ht)
  · exact tracks_done (.isPrivate ht)

theorem of_optional (k : Kind) : always (optional k) =
    ifNext k (fun _ => done true) (done false) := by
  funext ts
  rw [always, optional, ifNext]
  cases accept? k ts with
  | some r => rfl
  | none => rfl

theorem tracks_static : (always (optional .kwStatic)).Tracks eof n ts StaticDerives := by
  rw [of_optional]
  exact tracks_accept (tracks_done .absent) fun t _ ht => tracks_done (.isStatic ht)

theorem of_memberType : of (memberType eof) =
    ifNext .kwVoid (fun _ => done .void) (of (type eof)) := by
  funext ts
  rw [of, memberType, ifNext]
  cases accept? .kwVoid ts with
  | some r => rfl
  | none => rfl

theorem tracks_memberType : (of (memberType eof)).Tracks eof n ts Ty.MemberDerives := by
  rw [of_memberType]
  refine tracks_accept (tracks_type.imp fun ty us hty => .type hty) fun t _ ht => ?_
  exact tracks_done (.void ht)

theorem of_member : of (member eof) = (always visibility).andThen fun isPrivate =>
      (always (optional .kwStatic)).andThen fun isStatic =>
        (of (memberType eof)).andThen fun ty => (of (expect eof .id)).andThen fun name =>
          ifNext .semicolon
            (fun _ => done (.field ⟨name.span, name.spelling, ty, isPrivate, isStatic⟩))
            (of (method eof isPrivate isStatic ty name)) := by
  funext ts
  rw [of, member, always_andThen, always_andThen]
  refine outcome_bind fun _ => outcome_bind fun r => ?_
  obtain ⟨name, ts₁, h₁⟩ := r
  dsimp only [ifNext]
  cases accept? .semicolon ts₁ with
  | none => exact outcome_pass fun _ => rfl
  | some r => rfl

theorem tracks_member (heof : eof.kind = .eof) :
    (of (member eof)).Tracks eof n ts Member.Derives := by
  rw [of_member]
  refine tracks_visibility.bind fun isPrivate rest vs hv => ?_
  refine tracks_static.bind fun isStatic rest ss hs => ?_
  refine tracks_memberType.bind fun ty rest us hty => tracks_expect fun name _ hn => ?_
  refine tracks_accept ?_ fun s _ hsemi => tracks_done ?_
  · refine (tracks_method heof hv hs hty hn).imp fun m ws hm => ?_
    simpa using hm
  · simpa [Member.Derives] using FieldDecl.Derives.mk hv hs hty hn hsemi

theorem of_memberList : of (memberList eof) =
    ifKind eof (· = .rcurly) (done []) ((of (member eof)).andThen fun m =>
      (of (memberList eof)).andThen fun ms => done (m :: ms)) := by
  funext ts
  rw [of, memberList, ifKind]
  split
  · rfl
  · exact outcome_bind fun _ => outcome_bind fun _ => rfl

theorem tracks_memberList (heof : eof.kind = .eof) :
    (of (memberList eof)).Tracks eof n ts fun ms us =>
      ClassDecl.MembersDerive (ms.filterMap (·.field?)) (ms.filterMap (·.method?)) us := by
  have hne : ∀ m us, Member.Derives m us → us ≠ [] := by
    intro m us hm
    cases m <;> cases hm <;> simp
  induction n generalizing ts with
  | zero => exact tracks_zero ⟨[], [], .nil⟩
  | succ n ih =>
    rw [of_memberList]
    refine tracks_ifKind (fun _ => tracks_done .nil) fun _ => ?_
    refine (tracks_member heof).bind_of_ne_nil hne fun m rest us hm => ?_
    refine ih.bind fun ms rest vs hms => tracks_done ?_
    rw [List.append_nil]
    cases m with
    | field f => exact .field hm hms
    | method m => exact .method hm hms

theorem of_cls : of (cls eof) =
    (of (expect eof .kwClass)).andThen fun _ => (of (expect eof .id)).andThen fun name =>
      (of (expect eof .lcurly)).andThen fun _ => (of (memberList eof)).andThen fun ms =>
        (of (expect eof .rcurly)).andThen fun _ => done ⟨name.span, name.spelling,
          ms.filterMap (·.field?), ms.filterMap (·.method?), false⟩ := by
  funext ts
  rw [of, cls]
  exact outcome_bind fun _ => outcome_bind fun _ => outcome_bind fun _ =>
    outcome_bind fun _ => outcome_bind fun _ => rfl

theorem tracks_cls (heof : eof.kind = .eof) : (of (cls eof)).Tracks eof n ts ClassDecl.Derives := by
  rw [of_cls]
  refine tracks_expect fun k _ hk => tracks_expect fun name _ hname => ?_
  refine tracks_expect fun o _ ho => (tracks_memberList heof).bind fun ms rest us hms => ?_
  refine tracks_expect fun c _ hc => tracks_done ?_
  simpa using ClassDecl.Derives.mk hk hname ho hms hc

theorem classes_eq_ok (h : classes eof ts = .ok cs) :
    (∃ c rest hlt cs', cls eof ts = .ok ⟨c, rest, hlt⟩ ∧ classes eof rest = .ok cs' ∧
      cs = c :: cs') ∨ kindAt eof ts = .eof ∧ cs = [] := by
  rw [classes] at h
  split at h
  · cases hc : cls eof ts with
    | error d =>
      rw [hc] at h
      cases h
    | ok r =>
      cases hcs : classes eof r.rest with
      | error d =>
        simp only [hc, hcs, bind, Except.bind] at h
        cases h
      | ok cs' =>
        simp only [hc, hcs, bind, Except.bind] at h
        cases h
        exact .inl ⟨r.value, r.rest, r.lt, cs', rfl, hcs, rfl⟩
  · split at h
    · cases h
      exact .inr ⟨by assumption, rfl⟩
    · cases h

theorem classes_derive (heof : eof.kind = .eof) {ts : List Token} (hts : ∀ t ∈ ts, t.kind ≠ .eof)
    (h : classes eof ts = .ok cs) : ClassDecl.DerivesList cs ts := by
  obtain ⟨c, rest, hlt, cs', hc, hcs, rfl⟩ | ⟨hk, rfl⟩ := classes_eq_ok h
  · have hread : of (cls eof) ts = .ok (c, rest) := by
      rw [of, hc]
      rfl
    obtain ⟨us, hspl, hc, -⟩ := (tracks_cls heof).ok (lt_succ_self _) c rest hread
    have hrest : ∀ t ∈ rest, t.kind ≠ .eof :=
      fun t ht => hts t (hspl ▸ List.mem_append_right us ht)
    rw [hspl]
    exact .cons hc (classes_derive heof hrest hcs)
  · cases ts with
    | nil => exact .nil
    | cons t ts => exact absurd hk (hts t List.mem_cons_self)
termination_by ts.length

theorem classes_of_kwClass (hk : kindAt eof ts = .kwClass) : classes eof ts = (do
      let x ← of (cls eof) ts
      let cs ← classes eof x.2
      return x.1 :: cs) := by
  rw [classes, if_pos hk, of]
  cases cls eof ts <;> rfl

theorem classes_eq_error (heof : eof.kind = .eof) {ts : List Token} {d : Diagnostic}
    (h : classes eof ts = .error d) :
    ∃ us rest, ts = us ++ rest ∧ Refuses eof d rest ∧
      (∃ cs vs, ClassDecl.DerivesList cs (us ++ vs)) ∧
      ∀ rest', SameHead rest rest' → classes eof (us ++ rest') = .error d := by
  have hne : ∀ c us, ClassDecl.Derives c us → us ≠ [] := by
    intro c us hc
    cases hc
    simp
  by_cases hk : kindAt eof ts = .kwClass
  · have hkind : ∀ {us rest rest' : List Token}, ts = us ++ rest → SameHead rest rest' →
        kindAt eof (us ++ rest') = .kwClass :=
      fun hts hs => ((hs.append _).kindAt eof).trans (hts ▸ hk)
    rw [classes_of_kwClass hk] at h
    cases hc : of (cls eof) ts with
    | error e =>
      obtain ⟨us, rest, hts, hd, ⟨c, vs, hder⟩, hsame⟩ :=
        (tracks_cls heof).error (Nat.lt_succ_self _) e hc
      rw [hc] at h
      obtain rfl : e = d := Except.error.inj h
      refine ⟨us, rest, hts, hd, ⟨[c], vs, ?_⟩, fun rest' hs => ?_⟩
      · simpa using ClassDecl.DerivesList.cons hder .nil
      rw [classes_of_kwClass (hkind hts hs), hsame rest' hs]
      rfl
    | ok x =>
      obtain ⟨us, hts, hder, hsame⟩ := (tracks_cls heof).ok (Nat.lt_succ_self _) x.1 x.2 hc
      rw [hc] at h
      cases hcs : classes eof x.2 with
      | ok cs =>
        simp only [bind, Except.bind, hcs] at h
        cases h
      | error e =>
        simp only [bind, Except.bind, hcs] at h
        obtain rfl : e = d := Except.error.inj h
        have hlt : x.2.length < ts.length := by
          have hpos := List.length_pos_iff.2 (hne _ _ hder)
          rw [hts, List.length_append]
          omega
        obtain ⟨vs, rest, hr, hd, ⟨cs, ws, hlist⟩, hsame'⟩ := classes_eq_error heof hcs
        refine ⟨us ++ vs, rest, by rw [hts, hr, List.append_assoc], hd,
          ⟨x.1 :: cs, ws, ?_⟩, fun rest' hs => ?_⟩
        · simpa using ClassDecl.DerivesList.cons hder hlist
        have hh : SameHead x.2 (vs ++ rest') := hr ▸ hs.append vs
        rw [List.append_assoc, classes_of_kwClass (hkind hts hh), hsame _ hh]
        simp only [bind, Except.bind, hsame' rest' hs]
  · rw [classes, if_neg hk] at h
    split at h
    · cases h
    · rename_i hend
      cases h
      refine ⟨[], ts, rfl, ⟨rfl, fun hinv => if_pos hinv⟩, ⟨[], [], .nil⟩, fun rest' hs => ?_⟩
      have hkind := hs.kindAt eof
      rw [List.nil_append, classes, if_neg (hkind ▸ hk), if_neg (hkind ▸ hend), refuse, hs.current]
termination_by ts.length

end Tree.Parse

end MiniJam
