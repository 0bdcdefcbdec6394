import MiniJam.Proofs.Watch

/-!
# Changes that are found by looking

A watcher that the system tells nothing looks at its files now and then.  What it saw of a file is
the state at the last look, or at the call that made it watch the file (`Watcher.lastSeen`).  At the
next look the observer is told exactly if the state is another one, except that a file of the same
size with an earlier time passes for the old one (`Watcher.poll_tells_changes`).
-/

namespace MiniJam.Watcher

open List

variable {P : Type} {w : Watcher P} {path : String}

/-! ### One look -/

/-- What is known about a file after a look; a look that fails for another reason than a missing file
tells nothing. -/
def seeing (before : Option Stat) : Except FileCause Stat → Option Stat
  | .ok s => some s
  | .error .missing => none
  | .error _ => before

/-- The file has the size of before and an earlier time. -/
def Rewound (before now : Option Stat) : Prop :=
  ∃ old s, before = some old ∧ now = some s ∧ s.size = old.size ∧ s.modified < old.modified

/-- The change from one state of a file to another one. -/
def changeBetween (before now : Option Stat) : Change :=
  if before = none then .create else if now = none then .delete else .update

theorem compare_fst (before : Option Stat) (found : Except FileCause Stat) :
    (compare before found).1 = seeing before found := by
  rcases found with cause | s
  · cases cause <;> cases before <;> rfl
  · cases before <;> rfl

theorem compare_snd (before : Option Stat) (found : Except FileCause Stat) :
    (seeing before found = before ∨ Rewound before (seeing before found) →
        (compare before found).2 = none) ∧
      (seeing before found ≠ before → ¬ Rewound before (seeing before found) →
        (compare before found).2 = some (changeBetween before (seeing before found))) := by
  rcases found with cause | ⟨time, size⟩
  · cases cause <;> cases before <;> simp [seeing, compare, Rewound, changeBetween]
  · rcases before with _ | ⟨time', size'⟩
    · simp [seeing, compare, Rewound, changeBetween]
    · simp only [seeing, compare, Rewound, changeBetween, Option.some.injEq, Stat.mk.injEq,
        exists_and_left, exists_eq_left', reduceCtorEq, if_false]
      grind

theorem get?_poll (w : Watcher P) (fs : Files) (path : String) :
    (w.poll fs).1.watched.get? path = (w.watched.get? path).map fun x => (look fs path x).1 := by
  have hent : (w.poll fs).1.watched =
      ⟨w.watched.entries.map fun e => (e.1, (look fs e.1 e.2).1)⟩ := by simp [poll]
  rw [hent]
  obtain ⟨entries⟩ := w.watched
  induction entries with
  | nil => rfl
  | cons e entries ih =>
    rw [map_cons, Dict.get?_mk_cons, Dict.get?_mk_cons, ih]
    split_ifs with hpath
    · rw [hpath]
      rfl
    · rfl

/-! ### Looks -/

/-- A watcher after looks, the latest of which comes first, each with the files at its time. -/
def afterLooks (w : Watcher P) : List Files → Watcher P
  | [] => w
  | fs :: earlier => ((w.afterLooks earlier).poll fs).1

/-- What was seen of a file at the last look, or at the first sight of it. -/
def lastSeen (path : String) (first : Files) : List Files → Option Stat
  | [] => (first.stat path).toOption
  | fs :: earlier => seeing (lastSeen path first earlier) (fs.stat path)

theorem keys_afterLooks (looks : List Files) :
    (w.afterLooks looks).watched.keys = w.watched.keys := by
  induction looks with
  | nil => rfl
  | cons fs earlier ih =>
    rw [← ih]
    simp [afterLooks, poll, Dict.keys]

theorem get?_afterLooks (hx : w.watched.get? path = some ⟨ps, (first.stat path).toOption⟩)
    (looks : List Files) :
    (w.afterLooks looks).watched.get? path = some ⟨ps, lastSeen path first looks⟩ := by
  induction looks with
  | nil => exact hx
  | cons fs earlier ih =>
    rw [afterLooks, get?_poll, ih, lastSeen, ← compare_fst]
    rfl

/-- A file is observed and looked at.  The next look tells once that it was created, updated or
deleted, if it has another state than before, and nothing if it has the same state.  Nothing is told
either about a file that has the size of before and an earlier time. -/
theorem poll_tells_changes [DecidableEq P] (hsilent : w.notifier = none)
    (hdistinct : w.watched.keys.Nodup) (hpath : Path.clean path = path)
    (hnew : w.isWatching path = false) (first : Files) (p : P) :
    ∃ w', w.observe first path p = .ok w' ∧ ∀ (looks : List Files) (fs : Files),
      let before := lastSeen path first looks
      let now := seeing before (fs.stat path)
      let told := ((w'.afterLooks looks).poll fs).2.filter (·.2.path = path)
      (now = before ∨ Rewound before now → told = []) ∧
      (now ≠ before → ¬ Rewound before now → told = [(p, ⟨changeBetween before now, path⟩)]) := by
  have hnone : w.watched.get? path = none := by simpa [isWatching, hpath] using hnew
  have hkeys : (w.watched.insert path ⟨[p], (first.stat path).toOption⟩).keys.Nodup := by
    have hfree : path ∉ w.watched.keys := by simp [Dict.mem_keys, hnone]
    rw [Dict.keys_insert, if_neg hfree]
    exact hdistinct.append (nodup_singleton _) (by simpa using hfree)
  refine ⟨{ w with watched := w.watched.insert path ⟨[p], (first.stat path).toOption⟩ }, ?_, ?_⟩
  · simp [observe, hpath, hnone, enter, hsilent]
  intro looks fs
  dsimp only
  rw [filter_poll (by rwa [keys_afterLooks]),
    get?_afterLooks ((Dict.get?_insert _ _ _ _).trans (if_pos rfl)), Option.map_some,
    Option.getD_some, look_snd]
  obtain ⟨hsame, hother⟩ := compare_snd (lastSeen path first looks) (fs.stat path)
  refine ⟨fun h => ?_, fun hne hnot => ?_⟩
  · rw [hsame h]
    rfl
  · rw [hother hne hnot]
    rfl

/-- The files with one file of one byte. -/
def oneByte (byte : UInt8) (time : Int) : Files := ⟨⟨[("/a", .file [byte] time)]⟩, 0, time + 1⟩

/-- The file is created after a processor began to observe it, and then updated. -/
theorem poll_tells_changes_twice : ∃ w w' : Watcher Nat, start 0 false = .ok w ∧
    w.observe (Files.empty 0) "/a" 7 = .ok w' ∧
    ((w'.afterLooks [oneByte 1 5]).poll (oneByte 2 6)).2.filter (·.2.path = "/a") =
      [(7, ⟨.update, "/a"⟩)] := by
  obtain ⟨w, hstart⟩ : ∃ w, start 0 false = .ok (w : Watcher Nat) := ⟨_, rfl⟩
  have hw := eq_of_start hstart
  have hpath : Path.clean "/a" = "/a" := by decide +kernel
  obtain ⟨w', hobserve, htold⟩ := poll_tells_changes (w := w) (by rw [hw]; rfl)
    (by rw [hw]; decide) hpath (by rw [hw]; decide +kernel) (Files.empty 0) 7
  have hbefore : lastSeen "/a" (Files.empty 0) [oneByte 1 5] = some ⟨5, 1⟩ := by decide +kernel
  have hnow : seeing (some ⟨5, 1⟩) ((oneByte 2 6).stat "/a") = some ⟨6, 1⟩ := by decide +kernel
  have htold := (htold [oneByte 1 5] (oneByte 2 6)).2
  rw [hbefore, hnow] at htold
  refine ⟨w, w', hstart, hobserve, htold (by decide) ?_⟩
  rintro ⟨old, s, hold, hs, -, hlt⟩
  cases hold
  cases hs
  exact absurd hlt (by decide)

/-- Another file of the same size and with an earlier time takes the place of the one that was seen,
and nobody is told. -/
theorem poll_misses_rewound : ∃ w w' : Watcher Nat, start 0 false = .ok w ∧
    w.observe (oneByte 1 5) "/a" 7 = .ok w' ∧
    (oneByte 2 3).stat "/a" ≠ (oneByte 1 5).stat "/a" ∧ (w'.poll (oneByte 2 3)).2 = [] :=
  ⟨_, _, rfl, rfl, by decide +kernel⟩

end MiniJam.Watcher
