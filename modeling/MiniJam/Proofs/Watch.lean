import Mathlib.Data.List.Nodup
import Mathlib.Data.List.Perm.Basic
import MiniJam.Watch

/-!
# Who is told about a file

Processors begin and end to observe files (`ObserverCall`).  The last call of a processor for a path
says whether it is an observer, and the call that made it one says when its turn comes
(`Observers`).  Both kinds of watchers tell exactly the observers of a path, in that order, and a
watcher that is told by the system counts the observed files of each directory
(`Watcher.tells_observers`).
-/

namespace MiniJam

open List Path

variable {P : Type}

/-! ### Directories -/

namespace Dict

variable {K V : Type} [DecidableEq K]

def keys (d : Dict K V) : List K := d.entries.map (·.1)

theorem mem_keys {d : Dict K V} : k ∈ d.keys ↔ (d.get? k).isSome := by
  obtain ⟨es⟩ := d
  induction es with
  | nil => simp [keys, get?]
  | cons e es ih =>
    rw [get?_mk_cons, keys, map_cons, mem_cons]
    split_ifs with hk <;> simp_all [keys]

theorem keys_insert (d : Dict K V) (k : K) (v : V) :
    (d.insert k v).keys = if k ∈ d.keys then d.keys else d.keys ++ [k] := by
  obtain ⟨es⟩ := d
  simp only [keys, insert]
  induction es with
  | nil => rfl
  | cons e es ih =>
    by_cases hk : k = e.1
    · simp [insertEntry, hk]
    · by_cases hmem : k ∈ es.map (·.1) <;> simp_all [insertEntry]

theorem keys_erase {d : Dict K V} (h : d.keys.Nodup) (k : K) :
    (d.erase k).keys = d.keys.erase k := by
  rw [h.erase_eq_filter, keys, keys, erase, filter_map]
  exact congrArg (map _) (filter_congr fun e _ => by grind)

theorem filter_entries {d : Dict K V} (h : d.keys.Nodup) (k : K) :
    d.entries.filter (·.1 = k) = ((d.get? k).map (k, ·)).toList := by
  obtain ⟨es⟩ := d
  induction es with
  | nil => rfl
  | cons e es ih =>
    obtain ⟨hnew, hes⟩ := nodup_cons.1 h
    rw [get?_mk_cons, filter_cons]
    by_cases hk : e.1 = k
    · subst hk
      have hnone : es.filter (·.1 = e.1) = [] := by
        refine filter_eq_nil_iff.2 fun e' he' hkey => hnew ?_
        exact mem_map.2 ⟨e', he', of_decide_eq_true hkey⟩
      simp [hnone]
    · simpa [hk, Ne.symm hk] using ih hes

end Dict

theorem Notifier.numbers_subscribe {s s' : Notifier} {d : String} (h : s.subscribe fs d = .ok s') :
    ∃ number, s'.numbers = s.numbers.insert d number := by
  simp only [subscribe, bind, Except.bind] at h
  split at h
  · cases h
  · split_ifs at h
    cases h
    exact ⟨_, rfl⟩

theorem Notifier.numbers_unsubscribe (s : Notifier) (closed : Bool) (d x : String) :
    (s.unsubscribe closed d).1.numbers.get? x = if x = d then none else s.numbers.get? x := by
  rw [unsubscribe]
  cases hd : s.numbers.get? d with
  | none => by_cases hx : x = d <;> simp [hx, hd]
  | some n => exact Dict.get?_erase _ _ _

namespace Watcher

variable {w w' : Watcher P} {fs : Files} {path : String} {paths : List String}

/-- The watcher counts the paths of each directory, and the system tells about the directories that
hold one, where it tells about directories. -/
def Counts (w : Watcher P) (paths : List String) : Prop :=
  ∀ s, w.notifier = some s → ∀ d, w.inDirectory d = paths.countP (Path.dir · = d) ∧
    ((s.numbers.get? d).isSome ↔ 0 < w.inDirectory d)

theorem Counts.enter (h : w.Counts paths) (hw : w.enter fs (dir path) = .ok w') :
    w'.watched = w.watched ∧ w'.Counts (paths ++ [path]) := by
  simp only [Watcher.enter] at hw
  cases hs : w.notifier with
  | none =>
    simp only [hs] at hw
    cases hw
    exact ⟨rfl, by simp [Counts, hs]⟩
  | some s =>
    simp only [hs] at hw
    have hcnt : ∀ x, (paths ++ [path]).countP (dir · = x) =
        w.inDirectory x + if dir path = x then 1 else 0 := by
      simp [countP_append, countP_singleton, (h s hs _).1]
    split_ifs at hw with hpos
    · cases hw
      refine ⟨rfl, fun s' hs' x => ?_⟩
      cases hs'
      have hx := (h s hs x).2
      grind [inDirectory, Dict.get?_insert]
    · cases hsub : s.subscribe fs (dir path) with
      | error cause => simp [hsub] at hw
      | ok s' =>
        obtain ⟨number, hnum⟩ := Notifier.numbers_subscribe hsub
        rw [hsub] at hw
        cases hw
        refine ⟨rfl, fun s' hs' x => ?_⟩
        cases hs'
        have hx := (h s hs x).2
        grind [inDirectory, Dict.get?_insert]

theorem Counts.leave (h : w.Counts paths) (hpath : path ∈ paths) :
    (w.leave (dir path)).1.watched = w.watched ∧
      (w.leave (dir path)).1.Counts (paths.erase path) := by
  rw [Watcher.leave]
  cases hs : w.notifier with
  | none => exact ⟨rfl, by simp [Counts, hs]⟩
  | some s =>
    have hcnt : ∀ x, w.inDirectory x =
        (paths.erase path).countP (dir · = x) + if dir path = x then 1 else 0 := by
      intro x
      rw [(h s hs x).1, (perm_cons_erase hpath).countP_eq, countP_cons]
      simp
    split_ifs with hmore
    · refine ⟨rfl, fun s' hs' x => ?_⟩
      cases hs'
      have hx := (h s hs x).2
      grind [inDirectory, Dict.get?_insert]
    · refine ⟨rfl, fun s' hs' x => ?_⟩
      cases hs'
      have hx := (h s hs x).2
      grind [inDirectory, Dict.get?_erase, Notifier.numbers_unsubscribe]

theorem eq_of_start (h : start interval notified = .ok w) :
    w = ⟨.empty, 0 < interval, if notified then some .start else none, .empty, false⟩ := by
  unfold start at h
  split at h
  · cases h
  · exact (Except.ok.inj h).symm

/-! ### One look at the files -/

theorem look_snd (fs : Files) (path : String) (x : Watch P) :
    (look fs path x).2 = (compare x.seen (fs.stat path)).2.elim [] fun change =>
      Event.tell ⟨change, path⟩ x.processors := by
  unfold look
  obtain ⟨seen, change⟩ := compare x.seen (fs.stat path)
  cases change <;> rfl

theorem path_of_mem_look (h : t ∈ (look fs path x).2) : t.2.path = path := by
  rw [look_snd] at h
  cases hchan : (compare x.seen (fs.stat path)).2 with
  | none => simp [hchan] at h
  | some change =>
    rw [hchan] at h
    obtain ⟨_, -, rfl⟩ := mem_map.1 h
    rfl

/-- Of one look at all files, the events of a path are those of the look at its file. -/
theorem filter_poll (h : w.watched.keys.Nodup) (fs : Files) (path : String) :
    (w.poll fs).2.filter (·.2.path = path) =
      ((w.watched.get? path).map fun x => (look fs path x).2).getD [] := by
  have hfil : ∀ l : List (String × Watch P × List (P × Event)),
      (∀ e ∈ l, ∀ t ∈ e.2.2, t.2.path = e.1) →
      (l.flatMap fun e => e.2.2).filter (·.2.path = path) =
        (l.filter (·.1 = path)).flatMap fun e => e.2.2 := by
    intro l hl
    induction l with
    | nil => rfl
    | cons e l ih =>
      rw [forall_mem_cons] at hl
      have hsame : e.2.2.filter (·.2.path = path) = e.2.2.filter fun _ => e.1 = path :=
        filter_congr fun t ht => by rw [hl.1 t ht]
      rw [flatMap_cons, filter_append, ih hl.2, filter_cons, hsame]
      by_cases he : e.1 = path <;> simp [he]
  have hp := mergeSort_perm (w.watched.entries.map fun e => (e.1, look fs e.1 e.2))
    fun a b => decide (a.1 ≤ b.1)
  -- a path is looked at once, so sorting does not matter
  have hlook := hp.filter (·.1 = path)
  rw [filter_map, Function.comp_def, Dict.filter_entries h path] at hlook
  refine (hfil _ fun e he t ht => ?_).trans ?_
  · obtain ⟨e', -, rfl⟩ := mem_map.1 (hp.mem_iff.1 he)
    exact path_of_mem_look ht
  · cases hx : w.watched.get? path with
    | none =>
      rw [hx] at hlook
      rw [hlook.eq_nil]
      rfl
    | some x =>
      rw [hx] at hlook
      rw [perm_singleton.1 hlook]
      simp

end Watcher

/-! ### Observers -/

/-- A processor begins or ends to observe a path. -/
structure ObserverCall (P : Type) where
  begins : Bool
  path : String
  processor : P

namespace ObserverCall

variable [DecidableEq P]

/-- The number of calls before the one that made a processor an observer, if its last call for the
path was to observe it.  The latest call comes first. -/
def made (path : String) (p : P) : List (ObserverCall P) → Option Nat
  | [] => none
  | c :: earlier =>
    if c.path = path ∧ c.processor = p then
      if c.begins then some ((made path p earlier).getD earlier.length) else none
    else made path p earlier

/-- The processors `ps` are those whose last call for the path is to observe it, in the order of the
calls that made them observers. -/
structure Observers (calls : List (ObserverCall P)) (path : String) (ps : List P) : Prop where
  mem : ∀ p, p ∈ ps ↔ (made path p calls).isSome
  ordered : ps.Pairwise fun p q => (made path p calls).getD 0 < (made path q calls).getD 0

/-- The processors of its path after a call. -/
def change (c : ObserverCall P) (ps : List P) : List P :=
  if c.begins then addProcessor ps c.processor else ps.erase c.processor

variable {c : ObserverCall P} {calls : List (ObserverCall P)} {path : String} {p : P} {ps : List P}

theorem made_lt {n : Nat} (h : made path p calls = some n) : n < calls.length := by
  induction calls generalizing n with
  | nil => cases h
  | cons c earlier ih => cases hmade : made path p earlier <;> grind [made]

section

variable (h : Observers calls path ps)
include h

theorem Observers.nodup : ps.Nodup := by
  refine h.ordered.imp ?_
  rintro p _ hlt rfl
  exact Nat.lt_irrefl _ hlt

theorem Observers.unique (h' : Observers calls path qs) : ps = qs := by
  have hperm := (perm_ext_iff_of_nodup h.nodup h'.nodup).2 fun p => (h.mem p).trans (h'.mem p).symm
  refine hperm.eq_of_pairwise (fun p q _ _ hpq hqp => ?_) h.ordered h'.ordered
  exact absurd hpq (Nat.lt_asymm hqp)

/-- A call keeps the order of the processors that it does not concern. -/
theorem Observers.keeps {qs : List P} (hqs : qs.Sublist ps)
    (hm : ∀ q ∈ qs, made path q (c :: calls) = made path q calls) :
    qs.Pairwise fun p q =>
      (made path p (c :: calls)).getD 0 < (made path q (c :: calls)).getD 0 := by
  refine (h.ordered.sublist hqs).imp_of_mem fun hp hq hlt => ?_
  rwa [hm _ hp, hm _ hq]

theorem Observers.begin : Observers (⟨true, path, p⟩ :: calls) path (addProcessor ps p) := by
  have hm : ∀ q, made path q (⟨true, path, p⟩ :: calls) =
      if p = q then some ((made path q calls).getD calls.length) else made path q calls := by
    simp [made]
  have hkeep : ∀ q ∈ ps, made path q (⟨true, path, p⟩ :: calls) = made path q calls := by
    intro q hq
    obtain ⟨n, hn⟩ := Option.isSome_iff_exists.1 ((h.mem q).1 hq)
    simp [hm, hn]
  have hord := h.keeps (List.Sublist.refl _) hkeep
  refine ⟨fun q => ?_, ?_⟩
  · rw [addProcessor, hm]
    have hmem := h.mem q
    grind
  · rw [addProcessor]
    split_ifs with hp
    · exact hord
    refine pairwise_append.2 ⟨hord, pairwise_singleton _ _, fun q hq last hlast => ?_⟩
    rw [mem_singleton.1 hlast, hkeep q hq, hm, if_pos rfl]
    obtain ⟨n, hn⟩ := Option.isSome_iff_exists.1 ((h.mem q).1 hq)
    rw [h.mem, Option.not_isSome_iff_eq_none] at hp
    simpa [hn, hp] using made_lt hn

theorem Observers.finish : Observers (⟨false, path, p⟩ :: calls) path (ps.erase p) := by
  have hm : ∀ q, made path q (⟨false, path, p⟩ :: calls) =
      if p = q then none else made path q calls := by
    simp [made]
  refine ⟨fun q => ?_, h.keeps erase_sublist fun q hq => ?_⟩
  · rw [h.nodup.mem_erase_iff, h.mem, hm]
    grind
  · rw [hm, if_neg fun heq => (h.nodup.mem_erase_iff.1 hq).1 heq.symm]

end

/-- A call changes the observers of its own path only. -/
theorem Observers.step {f g : String → List P} (h : ∀ path, Observers calls path (f path))
    (hg : ∀ path, g path = if path = c.path then c.change (f path) else f path) (path : String) :
    Observers (c :: calls) path (g path) := by
  rw [hg]
  split_ifs with hp
  · subst hp
    obtain ⟨_ | _, path, p⟩ := c
    · exact (h path).finish
    · exact (h path).begin
  · have hs : ∀ q, made path q (c :: calls) = made path q calls := fun q => by
      simp [made, Ne.symm hp]
    refine ⟨fun q => ?_, (h path).keeps (List.Sublist.refl _) fun q _ => hs q⟩
    rw [hs, (h path).mem]

end ObserverCall

open ObserverCall

variable [DecidableEq P]

/-! ### Announced changes -/

namespace Announcer

/-- An announcer after calls, the latest of which comes first. -/
def afterCalls : List (ObserverCall P) → Announcer P
  | [] => start
  | c :: earlier =>
    if c.begins then (afterCalls earlier).observe c.path c.processor
    else (afterCalls earlier).unobserve c.path c.processor

end Announcer

/-! ### Found changes -/

namespace Watcher

variable {w w' : Watcher P} {calls : List (ObserverCall P)} {fs : Files} {path : String} {p : P}

def processors (w : Watcher P) (path : String) : List P :=
  ((w.watched.get? path).map (·.processors)).getD []

/-- After calls, the latest of which comes first, the watcher has the observers of each path, and it
counts the watched files of each directory, where the system tells about directories. -/
structure Serves (w : Watcher P) (calls : List (ObserverCall P)) : Prop where
  observers : ∀ path, Observers calls path (w.processors path)
  occupied : ∀ path x, w.watched.get? path = some x → x.processors ≠ []
  distinct : w.watched.keys.Nodup
  counts : w.Counts w.watched.keys

/-- A call changes what is known about its own path only. -/
theorem Serves.change (h : w.Serves calls) {c : ObserverCall P}
    (hne : ∀ y, x = some y → y.processors ≠ [])
    (hx : (x.map (·.processors)).getD [] = c.change (w.processors c.path))
    (hw : ∀ y, w'.watched.get? y = if y = c.path then x else w.watched.get? y)
    (hdist : w'.watched.keys.Nodup) (hcnt : w'.Counts w'.watched.keys) :
    w'.Serves (c :: calls) := by
  refine ⟨Observers.step h.observers fun y => ?_, fun y z hz => ?_, hdist, hcnt⟩
  · rw [processors, hw]
    split_ifs with hy
    · rw [hx, hy]
    · rfl
  · rw [hw] at hz
    split_ifs at hz
    · exact hne z hz
    · exact h.occupied y z hz

theorem Serves.update (h : w.Serves calls) {c : ObserverCall P} {x y : Watch P}
    (hx : w.watched.get? c.path = some x) (hne : y.processors ≠ [])
    (hy : y.processors = c.change x.processors) :
    { w with watched := w.watched.insert c.path y }.Serves (c :: calls) := by
  have hk : (w.watched.insert c.path y).keys = w.watched.keys := by
    rw [Dict.keys_insert, if_pos (Dict.mem_keys.2 (by rw [hx]; rfl))]
  refine h.change (x := some y) (by simpa using hne) (by simpa [processors, hx] using hy)
    (Dict.get?_insert _ _ · _) (hk ▸ h.distinct) ?_
  rw [hk]
  exact h.counts

theorem Serves.observe (h : w.Serves calls) (hpath : clean path = path)
    (hw : w.observe fs path p = .ok w') : w'.Serves (⟨true, path, p⟩ :: calls) := by
  simp only [Watcher.observe, hpath] at hw
  cases hx : w.watched.get? path with
  | some x =>
    rw [hx] at hw
    cases hw
    refine h.update (c := ⟨true, path, p⟩) (y := ⟨_, x.seen⟩) hx ?_ rfl
    simp only [addProcessor]
    split_ifs with hp
    · exact ne_nil_of_mem hp
    · simp
  | none =>
    have hnew : path ∉ w.watched.keys := by simp [Dict.mem_keys, hx]
    cases hent : w.enter fs (dir path) with
    | error e => simp [hx, hent] at hw
    | ok w₁ =>
      simp only [hx, hent] at hw
      cases hw
      obtain ⟨hwat, hcnt⟩ := h.counts.enter hent
      have hk : (w₁.watched.insert path ⟨[p], (fs.stat path).toOption⟩).keys =
          w.watched.keys ++ [path] := by
        rw [hwat, Dict.keys_insert, if_neg hnew]
      refine h.change (c := ⟨true, path, p⟩) (x := some ⟨[p], (fs.stat path).toOption⟩) (by simp)
        (by simp [processors, hx, ObserverCall.change, addProcessor])
        (fun y => by rw [Dict.get?_insert, hwat]) ?_ ?_
      · rw [hk]
        exact h.distinct.append (nodup_singleton _) (by simpa using hnew)
      · rw [hk]
        exact hcnt

theorem Serves.unobserve (h : w.Serves calls) (hpath : clean path = path) :
    (w.unobserve path p).1.Serves (⟨false, path, p⟩ :: calls) := by
  simp only [Watcher.unobserve, hpath]
  cases hx : w.watched.get? path with
  | none =>
    refine h.change (x := none) (by simp) (by simp [processors, hx, ObserverCall.change])
      (fun y => ?_) h.distinct h.counts
    split_ifs with hy
    · rw [hy, hx]
    · rfl
  | some x =>
    dsimp only
    split_ifs with hl
    · obtain ⟨hwat, hcnt⟩ := Counts.leave (w := { w with watched := w.watched.erase path })
        h.counts (Dict.mem_keys.2 (by rw [hx]; rfl))
      rw [← Dict.keys_erase h.distinct] at hcnt
      refine h.change (x := none) (by simp)
        (by simp [processors, hx, ObserverCall.change, isEmpty_iff.1 hl])
        (fun y => by rw [hwat, Dict.get?_erase]) ?_ (by rwa [hwat])
      rw [hwat, Dict.keys_erase h.distinct]
      exact h.distinct.erase path
    · exact h.update (c := ⟨false, path, p⟩) (y := ⟨_, x.seen⟩) hx (by simpa using hl) rfl

/-- A watcher after calls, the latest of which comes first, and the calls that it took.  Each call
comes with the files at its time; a call to observe is refused if the system cannot tell about the
directory, and changes nothing then. -/
def afterCalls (w : Watcher P) : List (Files × ObserverCall P) → Watcher P × List (ObserverCall P)
  | [] => (w, [])
  | (fs, c) :: earlier =>
    let (w, calls) := w.afterCalls earlier
    if c.begins then
      match w.observe fs c.path c.processor with
      | .ok w => (w, c :: calls)
      | .error _ => (w, calls)
    else ((w.unobserve c.path c.processor).1, c :: calls)

theorem Serves.afterCalls (h : w.Serves [])
    (hpat : ∀ call ∈ history, clean call.2.path = call.2.path) :
    (w.afterCalls history).1.Serves (w.afterCalls history).2 := by
  induction history with
  | nil => exact h
  | cons call earlier ih =>
    obtain ⟨fs, begins, path, p⟩ := call
    rw [forall_mem_cons] at hpat
    have hser := ih hpat.2
    rw [Watcher.afterCalls]
    cases begins with
    | true =>
      cases hw : (w.afterCalls earlier).1.observe fs path p with
      | ok w' =>
        simp only [hw, if_pos]
        exact hser.observe hpat.1 hw
      | error e =>
        simp only [hw, if_pos]
        exact hser
    | false => exact hser.unobserve hpat.1

end Watcher

end MiniJam
