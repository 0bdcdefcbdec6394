import MiniJam.Files
import MiniJam.Proofs.Path

/-!
# Places and paths

A path whose last part is a name leads to the place of the name in its directory, if its directory
can be entered (`Files.resolve_under`).  Writing, removing and renaming a file change what is at the
places they name, and nothing else but the times of directories.
-/

namespace MiniJam

open List Path Dict

theorem Dict.get?_map_key {K V : Type} [DecidableEq K] {entries : List (K × V)} {f : K → K}
    {k k' : K} (h : ∀ e ∈ entries, f e.1 = k ↔ e.1 = k') :
    (⟨entries.map fun e => (f e.1, e.2)⟩ : Dict K V).get? k = (⟨entries⟩ : Dict K V).get? k' := by
  induction entries with
  | nil => rfl
  | cons e entries ih =>
    rw [forall_mem_cons] at h
    rw [map_cons, get?_mk_cons, get?_mk_cons, ih h.2]
    simp only [eq_comm (a := k), eq_comm (a := k'), h.1]

theorem Dict.get?_eq_none_iff {K V : Type} [DecidableEq K] {d : Dict K V} {k : K} :
    d.get? k = none ↔ ∀ e ∈ d.entries, e.1 ≠ k := by
  simp only [get?, lookup_eq_none_iff, bne_iff_ne, ne_comm]

namespace Files

variable {fs fs' : Files} {folder : Option String} {name place x : String}

/-! ### Following paths -/

theorem walk_append (fs : Files) (place : String) (ps qs : List String) :
    fs.walk place (ps ++ qs) = (fs.walk place ps).bind fun d => fs.walk d qs := by
  induction ps generalizing place with
  | nil => rfl
  | cons p ps ih =>
    rw [cons_append, walk, walk]
    split
    · exact ih _
    · rfl
    · rfl

variable {rooted : Bool} {done ps up : List String} {content : List UInt8} {time : Int}
  {n : FileNode} {y : String}

theorem eq_of_walk (h : Normal rooted done)
    (hps : ∀ p ∈ ps, IsPart p) (hw : fs.walk (ofParts rooted done.reverse) ps = .ok place) :
    place = ofParts rooted (ps.foldl (push rooted) done).reverse := by
  induction ps generalizing done with
  | nil => exact (Except.ok.inj hw).symm
  | cons p ps ih =>
    rw [forall_mem_cons] at hps
    rw [walk] at hw
    split at hw
    · rw [within_ofParts h hps.1] at hw
      exact ih (h.push hps.1) hps.2 hw
    · cases hw
    · cases hw

theorem isDirectory_iff :
    fs.isDirectory x = true ↔ ∃ time, fs.node? x = some (.directory time) := by
  unfold isDirectory
  cases fs.node? x with
  | none => simp
  | some n => cases n <;> simp [FileNode.isDirectory]

theorem walk_cons (hdir : fs.isDirectory place = true) (part : String) (ps : List String) :
    fs.walk place (part :: ps) = fs.walk (within place part) ps := by
  obtain ⟨time, htime⟩ := isDirectory_iff.1 hdir
  rw [walk, htime]

theorem isDirectory_of_walk (h : fs.walk place (part :: ps) = .ok x) :
    fs.isDirectory place = true := by
  rw [walk] at h
  split at h
  · rename_i time htime
    exact isDirectory_iff.2 ⟨time, htime⟩
  · cases h
  · cases h

theorem walk_mono (hdirs : ∀ y, fs.isDirectory y = true → fs'.isDirectory y = true)
    (h : fs.walk place ps = .ok x) : fs'.walk place ps = .ok x := by
  induction ps generalizing place with
  | nil => exact h
  | cons p ps ih =>
    have hpl := isDirectory_of_walk h
    rw [walk_cons hpl] at h
    rw [walk_cons (hdirs _ hpl)]
    exact ih h

def Enters (fs : Files) (folder : Option String) : Prop :=
  fs.walk (ofParts (isRooted folder) []) (folderParts folder) = .ok (directory folder) ∧
    fs.isDirectory (directory folder) = true

theorem Enters.mono (h : fs.Enters folder)
    (hdirs : ∀ y, fs.isDirectory y = true → fs'.isDirectory y = true) : fs'.Enters folder :=
  ⟨walk_mono hdirs h.1, hdirs _ h.2⟩

/-- The place of a name is found if and only if its directory can be entered. -/
theorem resolve_under (h : IsName name) : fs.resolve (under folder name) = .ok place ↔
      fs.Enters folder ∧ place = clean (under folder name) := by
  have hsta : (if isAbsolute (under folder name) = true then "/" else ".") =
      ofParts (isRooted folder) [] := by
    rw [isAbsolute_under h.isPart]
    cases isRooted folder <;> rfl
  have hpl : within (directory folder) name = clean (under folder name) := by
    rw [directory, within_ofParts (normal_trail folder) h.isPart, h.push, clean_under h]
  rw [resolve, if_neg (under_ne_empty h), hsta, parts_under h.isPart, walk_append]
  constructor
  · intro hrsv
    cases hw : fs.walk (ofParts (isRooted folder) []) (folderParts folder) with
    | error cause =>
      rw [hw] at hrsv
      cases hrsv
    | ok d =>
      rw [hw] at hrsv
      obtain rfl : d = directory folder := eq_of_walk .nil (isPart_folderParts folder) hw
      have hdir := isDirectory_of_walk hrsv
      refine ⟨⟨hw, hdir⟩, ?_⟩
      change fs.walk (directory folder) [name] = .ok place at hrsv
      rw [walk_cons hdir, hpl] at hrsv
      exact (Except.ok.inj hrsv).symm
  · rintro ⟨⟨hw, hdir⟩, rfl⟩
    rw [hw]
    change fs.walk (directory folder) [name] = _
    rw [walk_cons hdir, hpl, walk]

theorem resolve_clean (h : IsName name) : fs.resolve (clean (under folder name)) = .ok place ↔
      fs.Enters (cleanFolder folder) ∧ place = clean (under folder name) := by
  rw [← clean_cleanFolder h, ← resolve_under h, clean_cleanFolder h, clean_under_eq h]

def at? (fs : Files) (place : String) : Option FileNode :=
  (fs.node? place).map fun n => if n.isDirectory then .directory 0 else n

theorem isDirectory_eq : fs.isDirectory x = (fs.at? x).any (·.isDirectory) := by
  unfold isDirectory at?
  cases fs.node? x with
  | none => rfl
  | some n => cases n <;> rfl

theorem at?_of_isDirectory (h : fs.isDirectory x = true) : fs.at? x = some (.directory 0) := by
  obtain ⟨time, htime⟩ := isDirectory_iff.1 h
  rw [at?, htime]
  rfl

theorem node?_of_name (h : IsName name) :
    fs.node? (clean (under folder name)) = fs.nodes.get? (clean (under folder name)) := by
  have hne := clean_under_ne folder h
  rw [node?, if_neg (not_or.2 hne)]

theorem at?_touch (h : fs.isDirectory (dir place) = true) :
    (fs.touch place).at? x = fs.at? x := by
  have hdir := at?_of_isDirectory h
  unfold touch
  by_cases hr : dir place = "." ∨ dir place = "/"
  · rw [if_pos hr]
    unfold at? node?
    by_cases hx : x = "." ∨ x = "/"
    · simp only [if_pos hx]
      rfl
    · simp only [if_neg hx]
  · rw [if_neg hr]
    by_cases hx : x = "." ∨ x = "/"
    · unfold at? node?
      simp only [if_pos hx]
    · by_cases heq : x = dir place
      · subst heq
        rw [hdir]
        simp only [at?, node?, if_neg hx, get?_insert, if_true]
        rfl
      · simp only [at?, node?, if_neg hx, get?_insert, if_neg heq]

/-! ### Writing -/

theorem at?_insert (fs : Files) (folder : Option String) (x : String) (h : IsName name)
    (n : FileNode) (clock : Int) :
    ({ fs with nodes := fs.nodes.insert (clean (under folder name)) n, clock } : Files).at? x =
      if x = clean (under folder name) then some (if n.isDirectory then .directory 0 else n)
      else fs.at? x := by
  by_cases hx : x = clean (under folder name)
  · rw [if_pos hx, hx, at?, node?_of_name h, get?_insert, if_pos rfl]
    rfl
  · rw [if_neg hx]
    unfold at? node?
    simp only [get?_insert, if_neg hx]

theorem at?_putFile (h : IsName name) (hdir : fs.isDirectory (directory folder) = true)
    (content : List UInt8) :
    (fs.putFile (clean (under folder name)) content).at? x =
      if x = clean (under folder name) then some (.file content fs.clock) else fs.at? x := by
  have hput := fun x => at?_insert fs folder x h (.file content fs.clock) (fs.clock + 1)
  unfold putFile
  -- a file that is new changes the time of its directory too
  split
  · exact hput x
  · rw [at?_touch]
    · exact hput x
    · rw [dir_clean_under h, isDirectory_eq, hput, if_neg (directory_ne h), ← isDirectory_eq]
      exact hdir

theorem write_clean (h : IsName name)
    (hwrit : fs.write (clean (under folder name)) content = .ok fs') :
    fs.Enters (cleanFolder folder) ∧ fs.isDirectory (clean (under folder name)) = false ∧
      ∀ x, fs'.at? x = if x = clean (under folder name) then some (.file content fs.clock)
        else fs.at? x := by
  unfold write at hwrit
  split at hwrit
  · cases hwrit
  · rename_i place hrsv
    obtain ⟨hent, rfl⟩ := (resolve_clean h).1 hrsv
    have hdir := hent.2
    rw [directory_cleanFolder] at hdir
    split at hwrit
    · cases hwrit
    · rename_i hpl
      cases hwrit
      exact ⟨hent, Bool.eq_false_iff.2 hpl, fun x => at?_putFile h hdir content⟩

section

variable (h : IsName name)

include h

end

/-! ### Removing -/

def Blocked (fs : Files) (place : String) : Prop :=
  fs.isDirectory place = true ∧ ∃ y, (fs.at? y).isSome = true ∧ Path.dir y = place

theorem at?_erase (h : IsName name) :
    ({ fs with nodes := fs.nodes.erase (clean (under folder name)) } : Files).at? x =
      if x = clean (under folder name) then none else fs.at? x := by
  by_cases hx : x = clean (under folder name)
  · rw [if_pos hx, hx, at?, node?_of_name h, get?_erase, if_pos rfl]
    rfl
  · rw [if_neg hx]
    unfold at? node?
    simp only [get?_erase, if_neg hx]

theorem isSome_at?_of_mem {e : String × FileNode} (he : e ∈ fs.nodes.entries) :
    (fs.at? e.1).isSome = true := by
  have hkey := Option.isSome_iff_ne_none.2 fun hnone => get?_eq_none_iff.1 hnone e he rfl
  unfold at? node?
  rw [Option.isSome_map]
  split
  · rfl
  · exact hkey

theorem blocked_of_not_isRemovable (h : IsName name)
    (hnot : ¬ fs.isRemovable (clean (under folder name)) = true)
    (hs : (fs.at? (clean (under folder name))).isSome = true) :
    fs.Blocked (clean (under folder name)) := by
  rw [at?, node?_of_name h, Option.isSome_map] at hs
  obtain ⟨n, hn⟩ := Option.isSome_iff_exists.1 hs
  simp only [isRemovable, hn, Option.any_some, Bool.or_eq_true, Bool.not_eq_true', not_or,
    Bool.not_eq_false, isBare, all_eq_true, not_forall] at hnot
  obtain ⟨hdirectory, e, he, hdir⟩ := hnot
  refine ⟨?_, e.1, ?_, by simpa using hdir⟩
  · rw [isDirectory, node?_of_name h, hn]
    exact hdirectory
  · exact isSome_at?_of_mem he

/-- A path is followed to a place, and what is there is removed, unless it is a directory with
something in it. -/
theorem remove_under (fs : Files) (folder : Option String) (h : IsName name) :
    fs.remove (under folder name) = fs ∧ (fs.Enters folder →
        (fs.at? (clean (under folder name))).isSome = true →
        fs.Blocked (clean (under folder name))) ∨
      fs.Enters folder ∧ ∀ x, (fs.remove (under folder name)).at? x =
        if x = clean (under folder name) then none else fs.at? x := by
  unfold remove
  split
  · rename_i cause hrsv
    refine .inl ⟨rfl, fun hent => ?_⟩
    rw [(resolve_under h).2 ⟨hent, rfl⟩] at hrsv
    cases hrsv
  · rename_i place hrsv
    obtain ⟨hent, rfl⟩ := (resolve_under h).1 hrsv
    split
    · refine .inr ⟨hent, fun x => ?_⟩
      rw [at?_touch, at?_erase h]
      rw [dir_clean_under h, isDirectory_eq, at?_erase h, if_neg (directory_ne h), ← isDirectory_eq]
      exact hent.2
    · rename_i hnot
      exact .inl ⟨rfl, fun _ => blocked_of_not_isRemovable h hnot⟩

theorem at?_remove_of_ne (h : IsName name) (hx : x ≠ clean (under folder name)) :
    (fs.remove (under folder name)).at? x = fs.at? x := by
  obtain ⟨hsame, -⟩ | ⟨-, hat⟩ := remove_under fs folder h
  · rw [hsame]
  · rw [hat, if_neg hx]

theorem isSome_of_remove (h : IsName name)
    (hy : ((fs.remove (under folder name)).at? y).isSome = true) : (fs.at? y).isSome = true := by
  obtain ⟨hsame, -⟩ | ⟨-, hat⟩ := remove_under fs folder h
  · rwa [hsame] at hy
  · rw [hat] at hy
    split at hy
    · cases hy
    · exact hy

/-- Nothing is left at a path, unless a directory with something in it was there. -/
def Cleared (fs fs' : Files) (path : String) : Prop :=
  ∀ n, fs'.find path = .ok n → n.isDirectory = true ∧ fs.Blocked (clean path)

/-! ### Renaming -/

def Below (place x : String) : Prop := (place ++ "/").toList <+: x.toList

theorem not_below_of_length (h : x.length ≤ place.length) : ¬ Below place x := by
  intro hbel
  have hle := hbel.length_le
  rw [String.length_toList, String.length_toList, String.length_append] at hle
  have hsl : "/".length = 1 := by decide
  omega

theorem ne_of_below (h : Below place x) : x ≠ place := by
  rintro rfl
  exact not_below_of_length (Nat.le_refl _) h

variable {origin goal : String}

theorem relocated_of_below (goal : String) (h : Below origin x) (hne : x ≠ origin) :
    Below goal (relocated origin goal x) := by
  obtain ⟨rest, hr⟩ := h
  have hpre := isPrefixOf_iff_prefix.2 ⟨rest, hr⟩
  rw [relocated, if_neg hne, if_pos hpre, ← hr]
  refine ⟨rest, ?_⟩
  simp [← String.length_toList]

theorem relocated_of_not_below (h : ¬ Below origin x) (hne : x ≠ origin) :
    relocated origin goal x = x := by
  rw [relocated, if_neg hne, if_neg fun hpre => h <| isPrefixOf_iff_prefix.1 hpre]

theorem relocated_eq_goal (hx : x ≠ goal) : relocated origin goal x = goal ↔ x = origin := by
  constructor
  · intro heq
    by_contra hne
    -- what was below `origin` comes below `goal`, so its place is longer than `goal`
    by_cases hbel : Below origin x
    · have hg := relocated_of_below goal hbel hne
      rw [heq] at hg
      exact not_below_of_length (Nat.le_refl _) hg
    · rw [relocated_of_not_below hbel hne] at heq
      exact hx heq
  · rintro rfl
    rw [relocated, if_pos rfl]

theorem relocated_eq_iff_of_not_below (hgoal : x ≠ goal) (horig : x ≠ origin)
    (hy : ¬ Below origin y) : relocated origin goal y = x ↔ y = x := by
  by_cases heq : y = origin
  · rw [relocated, if_pos heq, heq]
    exact ⟨fun h => absurd h.symm hgoal, fun h => absurd h.symm horig⟩
  · rw [relocated_of_not_below hy heq]

theorem relocated_eq_iff (hgoal : x ≠ goal) (horig : x ≠ origin)
    (hbel : ¬ Below origin x) (hinto : ¬ Below goal x) : relocated origin goal y = x ↔ y = x := by
  by_cases hund : Below origin y
  · have hmov := relocated_of_below goal hund (ne_of_below hund)
    exact ⟨fun h => absurd (h ▸ hmov) hinto, fun h => absurd (h ▸ hund) hbel⟩
  · exact relocated_eq_iff_of_not_below hgoal horig hund

/-- The files after one has taken the place of another, before the times change. -/
def moved (fs : Files) (origin goal : String) : Files :=
  { fs with nodes := ⟨(fs.nodes.erase goal).entries.map fun e => (relocated origin goal e.1, e.2)⟩ }

theorem get?_moved_goal (hne : origin ≠ goal) :
    (fs.moved origin goal).nodes.get? goal = fs.nodes.get? origin := by
  refine (get?_map_key fun e he =>
    relocated_eq_goal (Ne.symm (of_decide_eq_true (mem_filter.1 he).2))).trans ?_
  exact (get?_erase _ _ _).trans (if_neg hne)

theorem get?_moved_origin (hne : origin ≠ goal) (hbel : ¬ Below goal origin) :
    (fs.moved origin goal).nodes.get? origin = none := by
  refine get?_eq_none_iff.2 (forall_mem_map.2 fun e _ => ?_)
  by_cases he : e.1 = origin
  · rw [relocated, if_pos he]
    exact hne.symm
  by_cases hund : Below origin e.1
  · exact fun heq => hbel (heq ▸ relocated_of_below goal hund he)
  · rwa [relocated_of_not_below hund he]

theorem at?_moved (hg : x ≠ goal)
    (h : ∀ e ∈ fs.nodes.entries, relocated origin goal e.1 = x ↔ e.1 = x) :
    (fs.moved origin goal).at? x = fs.at? x := by
  have hget : (fs.moved origin goal).nodes.get? x = fs.nodes.get? x := by
    refine (get?_map_key fun e he => h e (mem_filter.1 he).1).trans ?_
    exact (get?_erase _ _ _).trans (if_neg hg)
  unfold at? node?
  rw [hget]
  rfl

theorem rename_eq_ok {source target : String} (horig : fs.resolve source = .ok origin)
    (hgoal : fs.resolve target = .ok goal) (hne : origin ≠ goal)
    (hren : fs.rename source target = .ok fs') :
    fs.isDirectory goal = false ∧ fs' = ((fs.moved origin goal).touch origin).touch goal := by
  simp only [rename, horig, hgoal, Except.mapError, bind, Except.bind] at hren
  split at hren
  · cases hren
  split at hren
  · cases hren
  rename_i hfree
  split at hren
  · cases hren
  split at hren
  · cases hren
  split at hren
  · cases hren
  refine ⟨?_, (Except.ok.inj hren).symm⟩
  simpa [hne] using hfree

theorem not_below_trail (h : IsName name) (hup : up <:+ trail folder) :
    ¬ Below (clean (under folder name)) (ofParts (isRooted folder) up.reverse) := by
  rw [clean_under h]
  exact not_below_of_length (length_ofParts_le (normal_cons_trail h) (hup.trans (suffix_cons _ _)))

theorem enters_of_rename (h : IsName name) {target : String}
    (hren : fs.rename (under folder name) target = .ok fs') : fs.Enters folder := by
  cases horig : fs.resolve (under folder name) with
  | error cause =>
    simp only [rename, horig, Except.mapError, bind, Except.bind] at hren
    cases hren
  | ok origin => exact ((resolve_under h).1 horig).1

theorem rename_under {a b : String} (ha : IsName a) (hb : IsName b) (hne : a ≠ b)
    (hren : fs.rename (under folder a) (under folder b) = .ok fs') :
    fs.Enters folder ∧ fs.isDirectory (clean (under folder b)) = false ∧
      fs'.at? (clean (under folder b)) = fs.at? (clean (under folder a)) ∧
      (¬ Below (clean (under folder b)) (clean (under folder a)) →
        fs'.at? (clean (under folder a)) = none) ∧
      ∀ x, x ≠ clean (under folder b) → (∀ e ∈ fs.nodes.entries,
          relocated (clean (under folder a)) (clean (under folder b)) e.1 = x ↔ e.1 = x) →
        fs'.at? x = fs.at? x := by
  have hpls : clean (under folder a) ≠ clean (under folder b) := fun heq =>
    hne (clean_under_inj ha.isPart hb heq)
  have hent := enters_of_rename ha hren
  obtain ⟨hfree, hmov⟩ := rename_eq_ok ((resolve_under ha).2 ⟨hent, rfl⟩)
    ((resolve_under hb).2 ⟨hent, rfl⟩) hpls hren
  have hdir : (fs.moved (clean (under folder a))
      (clean (under folder b))).isDirectory (directory folder) = true := by
    rw [isDirectory_eq, at?_moved (directory_ne hb) fun _ _ => relocated_eq_iff (directory_ne hb)
      (directory_ne ha) (not_below_trail ha (suffix_refl _)) (not_below_trail hb (suffix_refl _)),
      ← isDirectory_eq]
    exact hent.2
  -- the nodes are moved first, then the time of the directory changes twice
  have htouc : ∀ x, fs'.at? x =
      (fs.moved (clean (under folder a)) (clean (under folder b))).at? x := by
    intro x
    have hfst := hdir
    rw [← dir_clean_under ha] at hfst
    rw [hmov, at?_touch, at?_touch hfst]
    rw [dir_clean_under hb, isDirectory_eq, at?_touch hfst, ← isDirectory_eq]
    exact hdir
  refine ⟨hent, hfree, ?_, fun hnot => ?_, fun x hx hstay => ?_⟩
  · rw [htouc, at?, node?_of_name hb, get?_moved_goal hpls, at?, node?_of_name ha]
  · rw [htouc, at?, node?_of_name ha, get?_moved_origin hpls hnot]
    rfl
  · rw [htouc, at?_moved hx hstay]

end Files

end MiniJam
