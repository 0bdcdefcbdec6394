import Mathlib.Algebra.BigOperators.Group.List.Lemmas
import Mathlib.Data.List.Dedup
import MiniJam.Proofs.Code.Heights
import MiniJam.Session

/-!
# Compiling with a cache

A session that compiles sources answers as if it had no cache.  It finds an object in its cache
exactly for the names and contents in `Session.recent`: those that were used last and could be
compiled, as many of them as the session remembers.  `Session.cache_invisible` says so for any
sequence of sources, together with what is counted.

The cache has digests in place of contents.  So the contents must have different digests: this is
the only assumption about them.
-/

namespace MiniJam

open List

/-! ### What was used last -/

section

variable {α : Type} [DecidableEq α] {n : Nat} {l : List α}

/-- The `n` members of a list that occur last, from the last one on. -/
def latest (n : Nat) (l : List α) : List α := l.dedup.reverse.take n

theorem mem_of_mem_latest {a : α} (h : a ∈ latest n l) : a ∈ l := by
  simpa using mem_of_mem_take h

theorem dedup_append_singleton (l : List α) (a : α) :
    (l ++ [a]).dedup = l.dedup.filter (· ≠ a) ++ [a] := by
  induction l with
  | nil => rfl
  | cons b l ih =>
    rw [cons_append]
    by_cases hb : b ∈ l
    · rw [dedup_cons_of_mem (mem_append_left _ hb), dedup_cons_of_mem hb, ih]
    · rw [dedup_cons_of_notMem hb]
      by_cases hba : b = a
      · subst hba
        rw [dedup_cons_of_mem (by simp), ih, filter_cons_of_neg (by simp)]
      · rw [dedup_cons_of_notMem (by simp [hb, hba]), ih, filter_cons_of_pos (by simpa),
          cons_append]

/-- Of the first members of a list without repetitions at most one is missing if one is left out. -/
theorem take_filter_take (hl : l.Nodup) (n : Nat) (a : α) :
    ((l.take (n + 1)).filter (· ≠ a)).take n = (l.filter (· ≠ a)).take n := by
  induction l generalizing n with
  | nil => simp
  | cons b l ih =>
    rw [nodup_cons] at hl
    rw [take_succ_cons]
    by_cases hb : b = a
    · subst hb
      have hne : ∀ c ∈ l, c ≠ b := by
        rintro c hc rfl
        exact hl.1 hc
      have hself : l.filter (· ≠ b) = l := filter_eq_self.2 fun c hc => by simpa using hne c hc
      have htake : (l.take n).filter (· ≠ b) = l.take n :=
        filter_eq_self.2 fun c hc => by simpa using hne c (mem_of_mem_take hc)
      rw [filter_cons_of_neg (by simp), filter_cons_of_neg (by simp), hself, htake,
        take_take, Nat.min_self]
    · rw [filter_cons_of_pos (by simpa), filter_cons_of_pos (by simpa)]
      cases n with
      | zero => rfl
      | succ n => rw [take_succ_cons, take_succ_cons, ih hl.2]

theorem latest_append (n : Nat) (l : List α) (a : α) :
    latest n (l ++ [a]) = (a :: (latest n l).filter (· ≠ a)).take n := by
  unfold latest
  rw [dedup_append_singleton, reverse_append, filter_reverse.symm, reverse_singleton,
    singleton_append]
  cases n with
  | zero => rfl
  | succ n =>
    rw [take_succ_cons, take_succ_cons, take_filter_take (nodup_reverse.2 (nodup_dedup l))]

end

/-! ### Caches -/

namespace Cache

variable {K V α : Type} {key : α → K} {R : α → V → Prop} {c : Cache K V} {l : List α} {a : α}

/-- The cache holds a value with the property `R` for the key of each member of a list, and nothing
else. -/
def Holds (key : α → K) (R : α → V → Prop) (c : Cache K V) (l : List α) : Prop :=
  List.Forall₂ (fun e a => e.1 = key a ∧ R a e.2) c.entries l

variable [DecidableEq K]

theorem mem_of_get? (h : c.get? k = some v) : (k, v) ∈ c.entries := by
  obtain ⟨before, after, hent, -⟩ := lookup_eq_some_iff.1 h
  simp [hent]

theorem Holds.get?_of_mem (h : c.Holds key R l) (hkey : ∀ b ∈ l, key b = key a → b = a)
    (ha : a ∈ l) : ∃ v, c.get? (key a) = some v ∧ R a v := by
  obtain ⟨n, entries⟩ := c
  change List.Forall₂ _ entries l at h
  change ∃ v, entries.lookup (key a) = some v ∧ R a v
  induction h with
  | nil => cases ha
  | @cons e b entries l he h ih =>
    obtain ⟨k, v⟩ := e
    obtain ⟨rfl, hv⟩ : k = key b ∧ R b v := he
    rw [forall_mem_cons] at hkey
    by_cases hb : key b = key a
    · obtain rfl := hkey.1 hb
      exact ⟨v, by simp, hv⟩
    · have hab : a ≠ b := fun hab => hb (hab ▸ rfl)
      have hne : (key a == key b) = false := by simpa using Ne.symm hb
      have hlook : ((key b, v) :: entries).lookup (key a) = entries.lookup (key a) := by
        simp only [lookup_cons, hne]
      rw [hlook]
      exact ih hkey.2 (mem_of_ne_of_mem hab ha)

theorem Holds.get?_of_notMem (h : c.Holds key R l) (hkey : ∀ b ∈ l, key b = key a → b = a)
    (ha : a ∉ l) : c.get? (key a) = none := by
  refine lookup_eq_none_iff.2 fun e he => ?_
  obtain ⟨b, hb, heb, -⟩ := exists_of_forall₂_mem h he
  have hne : key a ≠ e.1 := fun hae => ha (hkey b hb (by rw [← heb, hae]) ▸ hb)
  simpa using hne

theorem forall₂_filter [DecidableEq α] {entries : List (K × V)}
    (h : List.Forall₂ (fun e a => e.1 = key a ∧ R a e.2) entries l)
    (hkey : ∀ b ∈ l, key b = key a → b = a) :
    List.Forall₂ (fun e a => e.1 = key a ∧ R a e.2) (entries.filter fun e => e.1 ≠ key a)
      (l.filter (· ≠ a)) := by
  induction h with
  | nil => exact .nil
  | @cons e b entries l he h ih =>
    rw [forall_mem_cons] at hkey
    by_cases hb : b = a
    · have heq : e.1 = key a := by rw [he.1, hb]
      rw [filter_cons_of_neg (by simpa using heq), filter_cons_of_neg (by simpa using hb)]
      exact ih hkey.2
    · have hne : e.1 ≠ key a := fun heq => hb (hkey.1 (by rw [← he.1, heq]))
      rw [filter_cons_of_pos (by simpa using hne), filter_cons_of_pos (by simpa using hb)]
      exact .cons he (ih hkey.2)

theorem Holds.use [DecidableEq α] (h : c.Holds key R l) (hkey : ∀ b ∈ l, key b = key a → b = a)
    (hv : R a v) : (c.use (key a) v).Holds key R ((a :: l.filter (· ≠ a)).take c.capacity) :=
  forall₂_take _ (.cons ⟨rfl, hv⟩ (forall₂_filter h hkey))

end Cache

namespace Session

/-! ### What a call is counted as -/

/-- The names and contents that were used last, among those that can be compiled. -/
def recent (c : Compiler) (n : Nat) (done : List (String × List UInt8)) :
    List (String × List UInt8) :=
  latest n (done.filter fun r => (c.compile r.1 r.2).isOk)

/-- What a name and a content are counted as after those that were compiled before. -/
def outcome (c : Compiler) (n : Nat) (done : List (String × List UInt8))
    (r : String × List UInt8) : Measure :=
  if r ∈ recent c n done then .cacheHits
  else if (c.compile r.1 r.2).isOk then .compiles
  else .compileErrors

def CollisionFree (contents : List (List UInt8)) : Prop :=
  ∀ a ∈ contents, ∀ b ∈ contents, Text.Sha256.digest a = Text.Sha256.digest b → a = b

def named (call : String × Input) : String × List UInt8 := (call.1, call.2.bytes)

def compileAll (s : Session) (calls : List (String × Input)) : Session :=
  calls.foldl (fun s call => (s.compile call.1 call.2).2) s

/-- The number of calls for a program that were counted, whatever their outcome. -/
def counted (m : Metrics) (program : String) : Nat :=
  m.get .cacheHits program + m.get .compileErrors program + m.get .compiles program

variable {c : Compiler} {n : Nat} {done : List (String × List UInt8)} {r : String × List UInt8}

theorem isOk_iff : (c.compile r.1 r.2).isOk = true ↔ ∃ object, c.compile r.1 r.2 = .ok object := by
  cases c.compile r.1 r.2 <;> simp [Except.isOk, Except.toBool]

theorem of_mem_recent (h : r ∈ recent c n done) : r ∈ done ∧ (c.compile r.1 r.2).isOk = true :=
  mem_filter.1 (mem_of_mem_latest h)

theorem recent_append_of_isOk (h : (c.compile r.1 r.2).isOk = true) :
    recent c n (done ++ [r]) = (r :: (recent c n done).filter (· ≠ r)).take n := by
  have hlast : [r].filter (fun r => (c.compile r.1 r.2).isOk) = [r] := by simp [h]
  rw [recent, filter_append, hlast, latest_append, recent]

theorem recent_append_of_not_isOk (h : ¬ (c.compile r.1 r.2).isOk = true) :
    recent c n (done ++ [r]) = recent c n done := by
  have hlast : [r].filter (fun r => (c.compile r.1 r.2).isOk) = [] := by simp [h]
  rw [recent, filter_append, hlast, append_nil, recent]

theorem outcome_of_mem (h : r ∈ recent c n done) : outcome c n done r = .cacheHits := if_pos h

theorem outcome_of_isOk (h : r ∉ recent c n done) (hok : (c.compile r.1 r.2).isOk = true) :
    outcome c n done r = .compiles := by
  rw [outcome, if_neg h, if_pos hok]

theorem outcome_of_not_isOk (h : ¬ (c.compile r.1 r.2).isOk = true) :
    outcome c n done r = .compileErrors := by
  rw [outcome, if_neg fun hin => h (of_mem_recent hin).2, if_neg h]

theorem outcome_cases (c : Compiler) (n : Nat) (done : List (String × List UInt8))
    (r : String × List UInt8) :
    outcome c n done r = .cacheHits ∨ outcome c n done r = .compileErrors ∨
      outcome c n done r = .compiles := by
  by_cases hin : r ∈ recent c n done
  · exact .inl (outcome_of_mem hin)
  · by_cases hok : (c.compile r.1 r.2).isOk = true
    · exact .inr (.inr (outcome_of_isOk hin hok))
    · exact .inr (.inl (outcome_of_not_isOk hok))

/-! ### The state of the cache -/

def key (r : String × List UInt8) : String × List UInt8 := (r.1, Text.Sha256.digest r.2)

theorem eq_of_key_eq {contents : List (List UInt8)} (hfree : CollisionFree contents)
    (hdone : ∀ r ∈ done, r.2 ∈ contents) (hr : r.2 ∈ contents) :
    ∀ b ∈ recent c n done, key b = key r → b = r := by
  intro b hb heq
  obtain ⟨hname, hdig⟩ := Prod.mk.inj heq
  exact Prod.ext hname (hfree b.2 (hdone b (of_mem_recent hb).1) r.2 hr hdig)

/-- The session remembers the objects of the names and contents that were used last. -/
structure Remembers (s : Session) (n : Nat) (done : List (String × List UInt8)) : Prop where
  capacity : s.cache.capacity = n
  holds : s.cache.Holds key (fun r b => s.compiler.compile r.1 r.2 = .ok b.object)
    (recent s.compiler n done)

variable {s t : Session} {name : String} {source : Input} {b : Build}

theorem Remembers.used (h : s.Remembers n done)
    (hkey : ∀ b ∈ recent s.compiler n done, key b = key r → b = r)
    (hb : s.compiler.compile r.1 r.2 = .ok b.object) (hcomp : t.compiler = s.compiler)
    (hcac : t.cache = s.cache.use (key r) b) : t.Remembers n (done ++ [r]) := by
  refine ⟨by rw [hcac]; exact h.capacity, ?_⟩
  rw [hcomp, hcac, recent_append_of_isOk (isOk_iff.2 ⟨_, hb⟩), ← h.capacity]
  exact Cache.Holds.use (h.capacity ▸ h.holds) (h.capacity ▸ hkey) hb

theorem Remembers.failed (h : s.Remembers n done) (hr : ¬ (s.compiler.compile r.1 r.2).isOk = true)
    (hcomp : t.compiler = s.compiler) (hcac : t.cache = s.cache) :
    t.Remembers n (done ++ [r]) := by
  refine ⟨by rw [hcac, h.capacity], ?_⟩
  rw [hcomp, hcac, recent_append_of_not_isOk hr]
  exact h.holds

/-! ### One call -/

theorem get_count (s : Session) (x y : Measure) (p q : String) :
    (s.count x p).metrics.get y q = s.metrics.get y q + if (y, q) = (x, p) then 1 else 0 :=
  Metrics.get_add s.metrics x y p q 1

theorem compile_of_hit (hread : source.error = none)
    (hget : s.cache.get? (key (name, source.bytes)) = some b) :
    s.compile name source = (.ok b,
        { s with cache := s.cache.use (key (name, source.bytes)) b }.count .cacheHits name) := by
  unfold key at hget
  simp [compile, hread, hget, key]

theorem compile_of_error (hread : source.error = none)
    (hget : s.cache.get? (key (name, source.bytes)) = none) {e : CompileError}
    (he : s.compiler.compile name source.bytes = .error e) :
    s.compile name source =
      (.error (.compile e), (s.count .timed name).count .compileErrors name) := by
  unfold key at hget
  simp [compile, hread, hget, count, he]

theorem compile_of_ok (hread : source.error = none)
    (hget : s.cache.get? (key (name, source.bytes)) = none) {object : Object}
    (hobj : s.compiler.compile name source.bytes = .ok object) :
    s.compile name source = (.ok ⟨s.made, object⟩, { s.count .timed name with
          cache := s.cache.use (key (name, source.bytes)) ⟨s.made, object⟩
          made := s.made + 1 }.count .compiles name) := by
  unfold key at hget
  simp [compile, hread, hget, count, hobj, key]

/-- What a call does: its answer is that of the compiler, and it is counted once. -/
structure Answers (s : Session) (n : Nat) (done : List (String × List UInt8)) (name : String)
    (source : Input) : Prop where
  object : (s.compile name source).1.map Build.object =
    (s.compiler.compile name source.bytes).mapError .compile
  counts : ∀ x q, x ≠ .timed → (s.compile name source).2.metrics.get x q = s.metrics.get x q +
    if (x, q) = (outcome s.compiler n done (name, source.bytes), name) then 1 else 0

theorem Remembers.step (h : s.Remembers n done) (hr : source.error = none)
    (hkey : ∀ b ∈ recent s.compiler n done,
      key b = key (name, source.bytes) → b = (name, source.bytes)) :
    s.Answers n done name source ∧ (s.compile name source).2.compiler = s.compiler ∧
      (s.compile name source).2.Remembers n (done ++ [(name, source.bytes)]) := by
  -- the time of a compilation is counted besides its outcome
  have htim : ∀ x q, x ≠ .timed → (s.count .timed name).metrics.get x q = s.metrics.get x q := by
    intro x q hx
    rw [get_count, if_neg fun heq => hx (Prod.mk.inj heq).1, Nat.add_zero]
  by_cases hin : (name, source.bytes) ∈ recent s.compiler n done
  · obtain ⟨b, hget, hb⟩ := h.holds.get?_of_mem hkey hin
    rw [compile_of_hit hr hget]
    refine ⟨⟨?_, fun x q _ => ?_⟩, rfl, h.used hkey hb rfl rfl⟩
    · rw [compile_of_hit hr hget, hb]
      rfl
    · rw [compile_of_hit hr hget, outcome_of_mem hin]
      exact get_count _ _ _ _ _
  have hget := h.holds.get?_of_notMem hkey hin
  cases hobj : s.compiler.compile name source.bytes with
  | error e =>
    have hnot : ¬ (s.compiler.compile name source.bytes).isOk = true := by
      rw [hobj]
      exact Bool.false_ne_true
    rw [compile_of_error hr hget hobj]
    refine ⟨⟨?_, fun x q hx => ?_⟩, rfl, h.failed hnot rfl rfl⟩
    · rw [compile_of_error hr hget hobj, hobj]
      rfl
    · rw [compile_of_error hr hget hobj, outcome_of_not_isOk hnot, get_count, htim x q hx]
  | ok object =>
    rw [compile_of_ok hr hget hobj]
    refine ⟨⟨?_, fun x q hx => ?_⟩, rfl, h.used hkey hobj rfl rfl⟩
    · rw [compile_of_ok hr hget hobj, hobj]
      rfl
    · rw [compile_of_ok hr hget hobj, outcome_of_isOk hin (isOk_iff.2 ⟨object, hobj⟩),
        get_count, ← htim x q hx]

theorem Answers.counted (h : s.Answers n done name source) (q : String) :
    counted (s.compile name source).2.metrics q =
      counted s.metrics q + if q = name then 1 else 0 := by
  unfold Session.counted
  rw [h.counts .cacheHits q (by decide), h.counts .compileErrors q (by decide),
    h.counts .compiles q (by decide)]
  rcases outcome_cases s.compiler n done (name, source.bytes) with ho | ho | ho <;>
    by_cases hq : q = name <;> simp [ho, hq] <;> omega

/-! ### Any number of calls -/

theorem Remembers.run (h : s.Remembers n done) {contents : List (List UInt8)}
    (hfree : CollisionFree contents) (hd : ∀ r ∈ done, r.2 ∈ contents)
    {calls : List (String × Input)} (hr : ∀ call ∈ calls, call.2.error = none)
    (hcs : ∀ call ∈ calls, call.2.bytes ∈ contents) :
    (s.compileAll calls).compiler = s.compiler ∧
      (s.compileAll calls).Remembers n (done ++ calls.map named) ∧
      ∀ q, counted (s.compileAll calls).metrics q =
        counted s.metrics q + (calls.map (·.1)).count q := by
  induction calls generalizing s done with
  | nil => exact ⟨rfl, by rwa [map_nil, append_nil], fun q => rfl⟩
  | cons call calls ih =>
    obtain ⟨name, source⟩ := call
    rw [forall_mem_cons] at hr hcs
    obtain ⟨hans, hcomp, hnext⟩ := h.step hr.1 (eq_of_key_eq hfree hd hcs.1)
    have hd' : ∀ r ∈ done ++ [(name, source.bytes)], r.2 ∈ contents := by
      rw [forall_mem_append, forall_mem_singleton]
      exact ⟨hd, hcs.1⟩
    obtain ⟨hrest, hlast, hcoun⟩ := ih hnext hd' hr.2 hcs.2
    refine ⟨hrest.trans hcomp, ?_, fun q => ?_⟩
    · rwa [append_assoc] at hlast
    · rw [map_cons, count_cons]
      refine (hcoun q).trans ?_
      rw [hans.counted]
      simp [eq_comm (a := q)]
      omega

end Session

end MiniJam
