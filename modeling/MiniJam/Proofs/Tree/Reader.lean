import MiniJam.Proofs.Tree.Grammar
import MiniJam.Tree.Parse

/-!
# Readers

A reader takes something from the front of a list of tokens, or fails.  The functions that read are
readers once the bounds on the number of tokens left are forgotten, and `Reader.Tracks` says how one
of them follows the grammar.  If it reads something, then the tokens that it takes from the front of
its input make it up.  If it fails, then what it reports is about the first of the tokens that are
left, and those in front of it can be completed.  In both cases it has looked at what it took and at
the token after that only: it does the same with every input that starts in the same way.

A reader is followed on inputs of fewer tokens than a bound only, so that functions which call each
other can be treated by induction on the bound; that there is something to be read at all does not
depend on it.
-/

namespace MiniJam

open List Nat

def Token.ofKind (k : Kind) : Token := ⟨k, "", default⟩

namespace Tree.Parse

/-! ### Readers -/

/-- What comes of an attempt, without the bound on the number of tokens left. -/
def Attempt.outcome {α : Type} {n : Nat} (x : Attempt α n) : Except Diagnostic (α × List Token) :=
  x.map fun r => (r.value, r.rest)

def Reader (α : Type) : Type := List Token → Except Diagnostic (α × List Token)

namespace Reader

variable {α β : Type}

def of {n : List Token → Nat} (f : ∀ ts, Attempt α (n ts)) : Reader α := fun ts => (f ts).outcome

def always {n : List Token → Nat} (f : ∀ ts, Reading α (n ts)) : Reader α :=
  fun ts => .ok ((f ts).value, (f ts).rest)

def done (a : α) : Reader α := fun ts => .ok (a, ts)

def andThen (g : Reader α) (h : α → Reader β) : Reader β := fun ts => g ts >>= fun x => h x.1 x.2

/-- A token of a kind and then another reader, or, if there is no such token, a third reader. -/
def ifNext (k : Kind) (h : Token → Reader α) (g : Reader α) : Reader α :=
  fun ts => (accept? k ts).elim (g ts) fun r => h r.value r.rest

/-- Two readers, one of them for a first token whose kind has a property. -/
def ifKind (eof : Token) (c : Kind → Prop) [DecidablePred c] (h g : Reader α) : Reader α :=
  fun ts => if c (kindAt eof ts) then h ts else g ts

def refusal (eof : Token) (message : Token → String) : Reader α := fun ts => refuse eof ts message

end Reader

open Reader

section

variable {α β : Type} {n k : Nat}

theorem andThen_assoc {γ : Type} (g : Reader α) (h : α → Reader β) (k : β → Reader γ) :
    (g.andThen h).andThen k = g.andThen fun a => (h a).andThen k := by
  funext ts
  simp only [andThen]
  cases g ts <;> rfl

variable {ts ts' : List Token}

theorem andThen_congr {g g' : Reader α} (h : g ts = g' ts') (k : α → Reader β) :
    g.andThen k ts = g'.andThen k ts' := by
  rw [andThen, andThen, h]

theorem always_andThen {n : List Token → Nat} (f : ∀ ts, Reading α (n ts)) (k : α → Reader β)
    (ts : List Token) : (always f).andThen k ts = k (f ts).value (f ts).rest := rfl

theorem outcome_andThen {x : Attempt α n} {f : Reading α n → Attempt β k} {g : Reader α}
    {h : α → Reader β} (hx : x.outcome = g ts) (hf : ∀ r, (f r).outcome = h r.value r.rest) :
    Attempt.outcome (x >>= f) = g.andThen h ts := by
  rw [andThen, ← hx]
  cases x with
  | error d => rfl
  | ok r => exact hf r

theorem outcome_bind {n : List Token → Nat} {p : ∀ ts, Attempt α (n ts)}
    {f : Reading α (n ts) → Attempt β k} {h : α → Reader β}
    (hf : ∀ r, (f r).outcome = h r.value r.rest) :
    Attempt.outcome (p ts >>= f) = (of p).andThen h ts := outcome_andThen rfl hf

theorem outcome_pass {x : Attempt α n} {f : Reading α n → Attempt α k}
    (hf : ∀ r, (f r).outcome = .ok (r.value, r.rest)) : Attempt.outcome (x >>= f) = x.outcome := by
  cases x with
  | error d => rfl
  | ok r => exact hf r

/-- Both lists have the same first token, or both have none. -/
def SameHead (ts ts' : List Token) : Prop := ts.head? = ts'.head?

theorem SameHead.append (h : SameHead ts ts') (us : List Token) :
    SameHead (us ++ ts) (us ++ ts') := by
  cases us with
  | nil => exact h
  | cons t us => rfl

theorem SameHead.eq_nil (h : SameHead [] ts) : ts = [] := head?_eq_none_iff.1 h.symm

theorem SameHead.exists_cons (h : SameHead (t :: us) ts) : ∃ us', ts = t :: us' := by
  obtain ⟨us', rfl⟩ := head?_eq_some_iff.1 h.symm
  exact ⟨us', rfl⟩

theorem SameHead.current (h : SameHead ts ts') (eof : Token) :
    current eof ts' = current eof ts := by
  rw [Parse.current, Parse.current, headD_eq_head?_getD, headD_eq_head?_getD, h]

theorem SameHead.kindAt (h : SameHead ts ts') (eof : Token) : kindAt eof ts' = kindAt eof ts :=
  congrArg Token.kind (h.current eof)

end

/-- The diagnostic is about the first token of a list, or about the end if there is none. -/
structure Refuses (eof : Token) (d : Diagnostic) (ts : List Token) : Prop where
  span : d.span = some (current eof ts).span
  invalid : (current eof ts).kind = .invalid → d.message = (current eof ts).spelling

/-- How a reader follows the grammar on an input, if that has fewer than `n` tokens. -/
structure Reader.Tracks {α : Type} (g : Reader α) (eof : Token) (n : Nat) (ts : List Token)
    (P : α → List Token → Prop) : Prop where
  /-- There is something to be read. -/
  complete : ∃ a us, P a us
  /-- What is taken makes up what is read. -/
  ok : ts.length < n → ∀ a rest, g ts = .ok (a, rest) → ∃ us, ts = us ++ rest ∧ P a us ∧
    ∀ rest', SameHead rest rest' → g (us ++ rest') = .ok (a, rest')
  /-- What is taken before a failure can be completed. -/
  error : ts.length < n → ∀ d, g ts = .error d → ∃ us rest, ts = us ++ rest ∧ Refuses eof d rest ∧
    (∃ a vs, P a (us ++ vs)) ∧ ∀ rest', SameHead rest rest' → g (us ++ rest') = .error d

namespace Reader

variable {α β : Type} {eof : Token} {n m : Nat} {ts us : List Token} {g g' : Reader α}
  {h : α → Reader β} {P : α → List Token → Prop} {Q : β → List Token → Prop}

theorem Tracks.mono (hg : g.Tracks eof n ts P) (hm : m ≤ n) : g.Tracks eof m ts P where
  complete := hg.complete
  ok hts := hg.ok (Nat.lt_of_lt_of_le hts hm)
  error hts := hg.error (Nat.lt_of_lt_of_le hts hm)

theorem tracks_zero (hc : ∃ a us, P a us) : g.Tracks eof 0 ts P where
  complete := hc
  ok hts := absurd hts (not_lt_zero _)
  error hts := absurd hts (not_lt_zero _)

theorem Tracks.congr (hg : g.Tracks eof n ts P) (heq : ∀ ts', SameHead ts ts' → g' ts' = g ts') :
    g'.Tracks eof n ts P where
  complete := hg.complete
  ok hts a rest hok := by
    rw [heq ts rfl] at hok
    obtain ⟨us, rfl, hP, hs⟩ := hg.ok hts a rest hok
    refine ⟨us, rfl, hP, fun rest' hr => ?_⟩
    rw [heq _ (hr.append us), hs rest' hr]
  error hts d herr := by
    rw [heq ts rfl] at herr
    obtain ⟨us, rest, rfl, hd, hP, hs⟩ := hg.error hts d herr
    refine ⟨us, rest, rfl, hd, hP, fun rest' hr => ?_⟩
    rw [heq _ (hr.append us), hs rest' hr]

theorem Tracks.of_eq (hg : g.Tracks eof n ts P) (heq : ∀ ts', g' ts' = g ts') :
    g'.Tracks eof n ts P :=
  hg.congr fun ts' _ => heq ts'

theorem Tracks.imp (hg : g.Tracks eof n ts P) (himp : ∀ a us, P a us → P' a us) :
    g.Tracks eof n ts P' where
  complete := by
    obtain ⟨a, us, hP⟩ := hg.complete
    exact ⟨a, us, himp a us hP⟩
  ok hts a rest hok := by
    obtain ⟨us, hus, hP, hs⟩ := hg.ok hts a rest hok
    exact ⟨us, hus, himp a us hP, hs⟩
  error hts d herr := by
    obtain ⟨us, rest, hus, hd, ⟨a, vs, hP⟩, hs⟩ := hg.error hts d herr
    exact ⟨us, rest, hus, hd, ⟨a, vs, himp a _ hP⟩, hs⟩

theorem tracks_done {a : α} (hP : P a []) : (done a).Tracks eof n ts P where
  complete := ⟨a, [], hP⟩
  ok _ b rest hok := by
    cases hok
    exact ⟨[], rfl, hP, fun _ _ => rfl⟩
  error _ d herr := by cases herr

theorem tracks_refuse (hc : ∃ a us, P a us) (message : Token → String)
    (heq : ∀ ts', SameHead ts ts' → g ts' = refuse eof ts' message) : g.Tracks eof n ts P where
  complete := hc
  ok _ a rest hok := by
    rw [heq ts rfl] at hok
    cases hok
  error _ d herr := by
    obtain ⟨a, us, hP⟩ := hc
    rw [heq ts rfl] at herr
    cases herr
    refine ⟨[], ts, rfl, ⟨rfl, fun hk => if_pos hk⟩, ⟨a, us, hP⟩, fun rest' hr => ?_⟩
    rw [nil_append, heq rest' hr, refuse, hr.current]

theorem tracks_nil (hc : ∃ a us, P a us) {message : Token → String}
    (heq : g [] = refuse eof [] message) : g.Tracks eof n [] P := by
  refine tracks_refuse hc message fun ts' hs => ?_
  rw [hs.eq_nil, heq]

theorem tracks_refused (hc : ∃ a us, P a us) {message : Token → String}
    (heq : ∀ us', g (t :: us') = refuse eof (t :: us') message) : g.Tracks eof n (t :: us) P := by
  refine tracks_refuse hc message fun ts' hs => ?_
  obtain ⟨us', rfl⟩ := hs.exists_cons
  exact heq us'

theorem Tracks.cons (hg : g.Tracks eof n us fun a vs => P a (t :: vs))
    (heq : ∀ us', g' (t :: us') = g us') : g'.Tracks eof (n + 1) (t :: us) P where
  complete := by
    obtain ⟨a, vs, hP⟩ := hg.complete
    exact ⟨a, t :: vs, hP⟩
  ok hts a rest hok := by
    rw [heq] at hok
    obtain ⟨vs, rfl, hP, hs⟩ := hg.ok (lt_of_succ_lt_succ hts) a rest hok
    exact ⟨t :: vs, rfl, hP, fun rest' hr => (heq _).trans (hs rest' hr)⟩
  error hts d herr := by
    rw [heq] at herr
    obtain ⟨vs, rest, rfl, hd, hP, hs⟩ := hg.error (lt_of_succ_lt_succ hts) d herr
    exact ⟨t :: vs, rest, rfl, hd, hP, fun rest' hr => (heq _).trans (hs rest' hr)⟩

theorem Tracks.seq (hg : g.Tracks eof n ts P)
    (hh : ∀ a rest us, P a us → (h a).Tracks eof m rest fun b vs => Q b (us ++ vs))
    (hm : ∀ a rest us, P a us → ts = us ++ rest → ts.length < n → rest.length < m) :
    (g.andThen h).Tracks eof n ts Q where
  complete := by
    obtain ⟨a, us, hP⟩ := hg.complete
    obtain ⟨b, vs, hQ⟩ := (hh a [] us hP).complete
    exact ⟨b, us ++ vs, hQ⟩
  ok hts b rest₂ hok := by
    cases hfst : g ts with
    | error d =>
      rw [andThen, hfst] at hok
      cases hok
    | ok x =>
      obtain ⟨us, hus, hP, hs⟩ := hg.ok hts x.1 x.2 hfst
      rw [andThen, hfst] at hok
      obtain ⟨vs, hvs, hQ, hs₂⟩ := (hh x.1 x.2 us hP).ok (hm _ _ _ hP hus hts) b rest₂ hok
      refine ⟨us ++ vs, by rw [hus, hvs, append_assoc], hQ, fun rest' hr => ?_⟩
      have hhead : SameHead x.2 (vs ++ rest') := hvs ▸ hr.append vs
      rw [append_assoc, andThen, hs _ hhead]
      exact hs₂ rest' hr
  error hts d herr := by
    cases hfst : g ts with
    | error e =>
      -- What the first reader needs can be completed, and then so can the whole.
      obtain ⟨us, rest, hus, hd, ⟨a, vs, hP⟩, hs⟩ := hg.error hts e hfst
      obtain ⟨b, ws, hQ⟩ := (hh a [] _ hP).complete
      rw [andThen, hfst] at herr
      obtain rfl : e = d := Except.error.inj herr
      refine ⟨us, rest, hus, hd, ⟨b, vs ++ ws, by rwa [← append_assoc]⟩, fun rest' hr => ?_⟩
      rw [andThen, hs rest' hr]
      rfl
    | ok x =>
      obtain ⟨us, hus, hP, hs⟩ := hg.ok hts x.1 x.2 hfst
      rw [andThen, hfst] at herr
      obtain ⟨vs, rest, hvs, hd, ⟨b, ws, hQ⟩, hs₂⟩ :=
        (hh x.1 x.2 us hP).error (hm _ _ _ hP hus hts) d herr
      refine ⟨us ++ vs, rest, by rw [hus, hvs, append_assoc], hd,
        ⟨b, ws, by rwa [append_assoc]⟩, fun rest' hr => ?_⟩
      have hhead : SameHead x.2 (vs ++ rest') := hvs ▸ hr.append vs
      rw [append_assoc, andThen, hs _ hhead]
      exact hs₂ rest' hr

theorem Tracks.bind (hg : g.Tracks eof n ts P)
    (hh : ∀ a rest us, P a us → (h a).Tracks eof n rest fun b vs => Q b (us ++ vs)) :
    (g.andThen h).Tracks eof n ts Q := by
  refine hg.seq hh ?_
  rintro a rest us - rfl hlt
  rw [length_append] at hlt
  omega

theorem Tracks.bind_of_ne_nil (hg : g.Tracks eof (n + 1) ts P) (hne : ∀ a us, P a us → us ≠ [])
    (hh : ∀ a rest us, P a us → (h a).Tracks eof n rest fun b vs => Q b (us ++ vs)) :
    (g.andThen h).Tracks eof (n + 1) ts Q := by
  refine hg.seq hh ?_
  rintro a rest us hP rfl hlt
  have hpos := length_pos_iff.2 (hne a us hP)
  rw [length_append] at hlt
  omega

variable {k : Kind}

theorem tracks_ifNext {h : Token → Reader α} (hg : g.Tracks eof (n + 1) ts P)
    (hh : ∀ t us, t.kind = k → (h t).Tracks eof n us fun a vs => P a (t :: vs)) :
    (ifNext k h g).Tracks eof (n + 1) ts P := by
  cases ts with
  | nil =>
    refine hg.congr fun ts' hs => ?_
    rw [hs.eq_nil]
    rfl
  | cons t us =>
    by_cases ht : t.kind = k
    · refine (hh t us ht).cons fun us' => ?_
      rw [ifNext, accept?, if_pos ht]
      rfl
    · refine hg.congr fun ts' hs => ?_
      obtain ⟨us', rfl⟩ := hs.exists_cons
      rw [ifNext, accept?, if_neg ht]
      rfl

theorem tracks_ifKind {c : Kind → Prop} [DecidablePred c] {h : Reader α}
    (hh : c (kindAt eof ts) → h.Tracks eof n ts P) (hg : ¬ c (kindAt eof ts) → g.Tracks eof n ts P) :
    (ifKind eof c h g).Tracks eof n ts P := by
  by_cases hc : c (kindAt eof ts)
  · refine (hh hc).congr fun ts' hs => if_pos ?_
    rwa [hs.kindAt]
  · refine (hg hc).congr fun ts' hs => if_neg ?_
    rwa [hs.kindAt]

theorem tracks_refusal (hc : ∃ a us, P a us) (message : Token → String) :
    (refusal eof message).Tracks eof n ts P :=
  tracks_refuse hc message fun _ _ => rfl

theorem tracks_token {h : Token → Reader β}
    (hh : ∀ t us, t.kind = k → (h t).Tracks eof n us fun b vs => Q b (t :: vs)) :
    ((of (expect eof k)).andThen h).Tracks eof (n + 1) ts Q := by
  have hc : ∃ b us, Q b us := by
    obtain ⟨b, vs, hQ⟩ := (hh (.ofKind k) [] rfl).complete
    exact ⟨b, _, hQ⟩
  refine (tracks_ifNext (tracks_refusal hc (expecting (expected k))) hh).of_eq fun ts' => ?_
  cases hacc : accept? k ts' with
  | none | some r => simp only [andThen, of, expect, ifNext, hacc]; rfl

theorem tracks_expect {h : Token → Reader β}
    (hh : ∀ t us, t.kind = k → (h t).Tracks eof n us fun b vs => Q b (t :: vs)) :
    ((of (expect eof k)).andThen h).Tracks eof n ts Q :=
  (tracks_token hh).mono (le_succ n)

theorem tracks_accept {h : Token → Reader α} (hg : g.Tracks eof n ts P)
    (hh : ∀ t us, t.kind = k → (h t).Tracks eof n us fun a vs => P a (t :: vs)) :
    (ifNext k h g).Tracks eof n ts P := by
  cases n with
  | zero => exact tracks_zero hg.complete
  | succ n => exact tracks_ifNext hg fun t us ht => (hh t us ht).mono (le_succ n)

end Reader

variable {eof : Token}

@[simp] theorem kindAt_cons (t : Token) (ts : List Token) : kindAt eof (t :: ts) = t.kind := rfl

theorem accept?_cons {t : Token} (ht : t.kind = k) (ts : List Token) :
    accept? k (t :: ts) = some ⟨t, ts, lt_succ_self _⟩ := by
  simp [accept?, ht]

theorem accept?_of_ne (eof : Token) (h : kindAt eof ts ≠ k) : accept? k ts = none := by
  cases ts with
  | nil => rfl
  | cons t ts => simpa [accept?] using h

end Tree.Parse

end MiniJam
