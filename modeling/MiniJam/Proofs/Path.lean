import Mathlib.Data.List.TakeWhile
import MiniJam.Path

/-!
# Clean paths

A clean path is made of parts that each lead on (`Path.Normal`), so it is its own clean path
(`Path.clean_clean`) and tells its parts (`Path.ofParts_inj`).  Paths that differ in the text behind
the last slash alone (`Path.under`) lead to different places in one directory.
-/

namespace MiniJam.Path

open List String

/-! ### Parts -/

def IsPart (s : String) : Prop := '/' ∉ s.toList

instance (s : String) : Decidable (IsPart s) := inferInstanceAs (Decidable (¬ _))

theorem notMem_of_mem_splitOn {a : Char} {cs l : List Char} (h : l ∈ cs.splitOn a) : a ∉ l := by
  induction cs generalizing l with
  | nil =>
    rw [splitOn_nil, mem_singleton] at h
    simp [h]
  | cons c cs ih =>
    rw [splitOn_cons_eq_if_modifyHead] at h
    split at h
    · obtain rfl | h := mem_cons.1 h
      · exact not_mem_nil
      · exact ih h
    · rename_i hc
      cases hspl : cs.splitOn a with
      | nil => exact absurd hspl (splitOn_ne_nil a cs)
      | cons first rest =>
        rw [hspl] at h ih
        obtain rfl | h := mem_cons.1 h
        · have hne : a ≠ c := fun hac => hc (by simp [hac])
          simpa [hne] using ih mem_cons_self
        · exact ih (mem_cons_of_mem _ h)

theorem isPart_of_mem_parts {path p : String} (h : p ∈ parts path) : IsPart p := by
  obtain ⟨l, hl, rfl⟩ := mem_map.1 h
  rw [IsPart, toList_ofList]
  exact notMem_of_mem_splitOn hl

theorem parts_of_isPart (h : IsPart s) : parts s = [s] := by
  simp [parts, splitOn_eq_singleton h]

theorem parts_append_slash (a b : String) : parts (a ++ "/" ++ b) = parts a ++ parts b := by
  have hsl : (a ++ "/" ++ b).toList = a.toList ++ '/' :: b.toList := by simp
  rw [parts, hsl, splitOn_append_cons_self, map_append, parts, parts]

theorem parts_intercalate (hne : ps ≠ []) (h : ∀ p ∈ ps, IsPart p) :
    parts ("/".intercalate ps) = ps := by
  have hsl : "/".toList = ['/'] := rfl
  rw [parts, toList_intercalate, hsl, splitOn_intercalate]
  · simp
  · exact forall_mem_map.2 h
  · simpa using hne

/-! ### Parts that lead on -/

/-- Parts, in reverse order, that each lead on from those before. -/
inductive Normal (rooted : Bool) : List String → Prop
  | nil : Normal rooted []
  | cons {part : String} {done : List String} (hdone : Normal rooted done) (hpart : IsPart part)
    (hpush : push rooted done part = part :: done) : Normal rooted (part :: done)

variable {rooted : Bool} {done ps : List String} {part name : String}

theorem Normal.isPart (h : Normal rooted done) : ∀ p ∈ done, IsPart p := by
  induction h with
  | nil => exact forall_mem_nil _
  | cons _ hpart _ ih => exact forall_mem_cons.2 ⟨hpart, ih⟩

theorem Normal.ne_empty (h : Normal rooted done) : ∀ p ∈ done, p ≠ "" := by
  induction h with
  | nil => exact forall_mem_nil _
  | cons _ _ hpush ih =>
    refine forall_mem_cons.2 ⟨?_, ih⟩
    rintro rfl
    have hlen := congrArg List.length hpush
    simp [Path.push] at hlen

theorem Normal.push (h : Normal rooted done) (hp : IsPart part) :
    Normal rooted (push rooted done part) := by
  unfold Path.push
  split
  · exact h
  split
  · rename_i hup
    subst hup
    cases h with
    | nil =>
      cases rooted with
      | true => exact .nil
      | false => exact .cons .nil hp rfl
    | @cons last before hbef hlast hpush =>
      -- `..` takes back the last part, unless that is a `..` itself
      dsimp only
      split
      · rename_i hup
        subst hup
        exact .cons (.cons hbef hlast hpush) hp rfl
      · exact hbef
  · rename_i hemp hup
    exact .cons h hp (by simp only [Path.push, if_neg hemp, if_neg hup])

theorem Normal.foldl (h : Normal rooted done) (hps : ∀ p ∈ ps, IsPart p) :
    Normal rooted (ps.foldl (Path.push rooted) done) := by
  induction ps generalizing done with
  | nil => exact h
  | cons p ps ih =>
    rw [forall_mem_cons] at hps
    exact ih (h.push hps.1) hps.2

theorem Normal.foldl_reverse (h : Normal rooted done) :
    done.reverse.foldl (Path.push rooted) [] = done := by
  induction h with
  | nil => rfl
  | cons _ _ hpush ih =>
    rw [reverse_cons, foldl_append, ih]
    exact hpush

/-! ### Paths with given parts -/

theorem isAbsolute_append {a : String} (h : a ≠ "") (b : String) :
    isAbsolute (a ++ b) = isAbsolute a := by
  have hne : a.toList ≠ [] := by simpa using h
  simp [isAbsolute, head?_append, head?_eq_some_head hne]

theorem isAbsolute_of_isPart (h : IsPart part) : isAbsolute part = false := by
  rw [isAbsolute, decide_eq_false_iff_not]
  exact fun hhead => h (mem_of_mem_head? hhead)

theorem isAbsolute_intercalate (hpts : ∀ p ∈ ps, IsPart p) (hne : ∀ p ∈ ps, p ≠ "") :
    isAbsolute ("/".intercalate ps) = false := by
  cases ps with
  | nil => rfl
  | cons p ps =>
    rw [forall_mem_cons] at hpts hne
    by_cases hps : ps = []
    · rw [hps, String.intercalate_singleton]
      exact isAbsolute_of_isPart hpts.1
    · rw [String.intercalate_cons_of_ne_nil hps, String.append_assoc, isAbsolute_append hne.1]
      exact isAbsolute_of_isPart hpts.1

theorem isAbsolute_ofParts (h : Normal rooted done) :
    isAbsolute (ofParts rooted done.reverse) = rooted := by
  unfold ofParts
  cases rooted with
  | true =>
    rw [if_pos rfl, isAbsolute_append (by decide)]
    rfl
  | false =>
    rw [if_neg Bool.false_ne_true]
    split
    · rfl
    · exact isAbsolute_intercalate (fun p hp => h.isPart p (mem_reverse.1 hp))
        (fun p hp => h.ne_empty p (mem_reverse.1 hp))

theorem parts_ofParts (hne : ps ≠ []) (hps : ∀ p ∈ ps, IsPart p) :
    parts (ofParts rooted ps) = if rooted then "" :: ps else ps := by
  cases rooted with
  | true =>
    have hroot : ofParts true ps = "" ++ "/" ++ "/".intercalate ps := by simp [ofParts]
    rw [hroot, parts_append_slash, parts_intercalate hne hps]
    rfl
  | false =>
    rw [ofParts, if_neg Bool.false_ne_true, if_neg hne, parts_intercalate hne hps,
      if_neg Bool.false_ne_true]

theorem foldl_parts_ofParts (hps : ∀ p ∈ ps, IsPart p) :
    (parts (ofParts rooted ps)).foldl (push rooted) done = ps.foldl (push rooted) done := by
  by_cases hne : ps = []
  · subst hne
    cases rooted <;> rfl
  · rw [parts_ofParts hne hps]
    cases rooted <;> rfl

theorem Normal.foldl_parts (h : Normal rooted done) :
    (parts (ofParts rooted done.reverse)).foldl (Path.push rooted) [] = done := by
  rw [foldl_parts_ofParts fun p hp => h.isPart p (mem_reverse.1 hp), h.foldl_reverse]

theorem clean_ofParts (h : Normal rooted done) :
    clean (ofParts rooted done.reverse) = ofParts rooted done.reverse := by
  rw [clean, isAbsolute_ofParts h, h.foldl_parts]

theorem ofParts_inj (h : Normal rooted done) (h' : Normal rooted' done')
    (heq : ofParts rooted done.reverse = ofParts rooted' done'.reverse) :
    rooted = rooted' ∧ done = done' := by
  obtain rfl : rooted = rooted' := by rw [← isAbsolute_ofParts h, heq, isAbsolute_ofParts h']
  exact ⟨rfl, by rw [← h.foldl_parts, heq, h'.foldl_parts]⟩

theorem normal_clean (path : String) :
    Normal (isAbsolute path) ((parts path).foldl (push (isAbsolute path)) []) :=
  Normal.nil.foldl fun _ => isPart_of_mem_parts

theorem clean_clean (path : String) : clean (clean path) = clean path :=
  clean_ofParts (normal_clean path)

theorem ofParts_ne_empty (h : Normal rooted done) : ofParts rooted done.reverse ≠ "" := by
  intro hemp
  obtain rfl : [] = done := by
    rw [← h.foldl_parts, hemp]
    rfl
  cases rooted <;> exact absurd hemp (by decide)

theorem within_ofParts (h : Normal rooted done) (hp : IsPart part) :
    within (ofParts rooted done.reverse) part = ofParts rooted (push rooted done part).reverse := by
  rw [within, isAbsolute_of_isPart hp, if_neg Bool.false_ne_true, clean, String.append_assoc,
    isAbsolute_append (ofParts_ne_empty h), isAbsolute_ofParts h, ← String.append_assoc,
    parts_append_slash, foldl_append, h.foldl_parts, parts_of_isPart hp]
  rfl

/-! ### Paths in one directory -/

/-- A part that leads on from any other. -/
structure IsName (s : String) : Prop where
  isPart : IsPart s
  push : ∀ rooted done, push rooted done s = s :: done

theorem isName_of_length (h : IsPart name) (hlen : 3 ≤ name.length) : IsName name := by
  have hne : ∀ s : String, s.length < 3 → name ≠ s := by
    rintro s hs rfl
    exact absurd hs (Nat.not_lt.2 hlen)
  refine ⟨h, fun rooted done => ?_⟩
  simp [Path.push, hne "" (by decide), hne "." (by decide), hne ".." (by decide)]

/-- The path with a text in front of its last slash, if it has one, and a text behind it. -/
def under (folder : Option String) (name : String) : String :=
  match folder with
  | none => name
  | some f => f ++ "/" ++ name

def folderParts (folder : Option String) : List String := (folder.map parts).getD []

/-- Whether a path with the given text in front of the last slash starts at the root. -/
def isRooted (folder : Option String) : Bool :=
  (folder.map fun f => isAbsolute (f ++ "/")).getD false

/-- The parts that lead to the directory of a path, in reverse order. -/
def trail (folder : Option String) : List String :=
  (folderParts folder).foldl (push (isRooted folder)) []

def directory (folder : Option String) : String := ofParts (isRooted folder) (trail folder).reverse

variable {folder : Option String}

theorem under_append (folder : Option String) (a b : String) :
    under folder (a ++ b) = under folder a ++ b := by
  cases folder with
  | none => rfl
  | some f => exact (String.append_assoc).symm

theorem under_ne_empty (h : IsName name) : under folder name ≠ "" := by
  have hname : name ≠ "" := by
    rintro rfl
    exact cons_ne_nil _ _ (h.push true []).symm
  cases folder with
  | none => exact hname
  | some f => simp [under]

theorem exists_under (path : String) : ∃ folder name, IsPart name ∧ path = under folder name := by
  by_cases h : IsPart path
  · exact ⟨none, path, h, rfl⟩
  · -- the last slash is the first one from behind
    obtain ⟨name, before, hpath, hname⟩ :=
      eq_append_cons_of_mem (mem_reverse.2 (Classical.not_not.1 h))
    refine ⟨some (ofList before.reverse), ofList name.reverse, ?_, ?_⟩
    · rwa [IsPart, toList_ofList, mem_reverse]
    · rw [← toList_inj, ← reverse_inj, hpath]
      simp [under]

theorem parts_under (h : IsPart name) :
    parts (under folder name) = folderParts folder ++ [name] := by
  cases folder with
  | none => exact parts_of_isPart h
  | some f =>
    rw [under, parts_append_slash, parts_of_isPart h]
    rfl

theorem isAbsolute_under (h : IsPart name) : isAbsolute (under folder name) = isRooted folder := by
  cases folder with
  | none => exact isAbsolute_of_isPart h
  | some f => exact isAbsolute_append (by simp) name

theorem isPart_folderParts (folder : Option String) : ∀ p ∈ folderParts folder, IsPart p := by
  cases folder with
  | none => exact forall_mem_nil _
  | some f => exact fun _ => isPart_of_mem_parts

theorem normal_trail (folder : Option String) : Normal (isRooted folder) (trail folder) :=
  Normal.nil.foldl (isPart_folderParts folder)

theorem normal_cons_trail (h : IsName name) : Normal (isRooted folder) (name :: trail folder) :=
  .cons (normal_trail folder) h.isPart (h.push _ _)

theorem clean_under (h : IsName name) :
    clean (under folder name) = ofParts (isRooted folder) (name :: trail folder).reverse := by
  rw [clean, isAbsolute_under h.isPart, parts_under h.isPart, foldl_append, ← trail,
    foldl_cons, foldl_nil, h.push]

def cleanFolder (folder : Option String) : Option String :=
  if trail folder = [] then if isRooted folder then some "" else none
  else some (directory folder)

theorem clean_under_eq (h : IsName name) :
    clean (under folder name) = under (cleanFolder folder) name := by
  rw [clean_under h, reverse_cons, cleanFolder]
  by_cases hemp : trail folder = []
  · rw [if_pos hemp, hemp]
    cases isRooted folder <;> simp [ofParts, under]
  · have hne : (trail folder).reverse ≠ [] := by simpa using hemp
    rw [if_neg hemp]
    simp only [under, directory, ofParts, if_neg hne, String.intercalate_singleton,
      intercalate_append_of_ne_nil hne (cons_ne_nil _ _)]
    cases isRooted folder <;> simp [String.append_assoc]

theorem clean_cleanFolder (h : IsName name) :
    clean (under (cleanFolder folder) name) = clean (under folder name) := by
  rw [← clean_under_eq h, clean_clean]

theorem isRooted_cleanFolder (folder : Option String) :
    isRooted (cleanFolder folder) = isRooted folder := by
  unfold cleanFolder
  split
  · cases isRooted folder <;> rfl
  · have hne := ofParts_ne_empty (normal_trail folder)
    exact (isAbsolute_append hne "/").trans (isAbsolute_ofParts (normal_trail folder))

theorem trail_cleanFolder (folder : Option String) : trail (cleanFolder folder) = trail folder := by
  rw [trail, isRooted_cleanFolder]
  unfold cleanFolder
  split
  · rename_i hemp
    rw [hemp]
    cases isRooted folder <;> rfl
  · exact (normal_trail folder).foldl_parts

theorem directory_cleanFolder (folder : Option String) :
    directory (cleanFolder folder) = directory folder := by
  rw [directory, isRooted_cleanFolder, trail_cleanFolder, directory]

theorem eq_of_push (h : push rooted done part = last :: done) : part = last := by
  unfold push at h
  split at h
  · exact absurd h (by simp)
  split at h
  · rename_i hup
    rw [hup]
    cases done with
    | nil => cases rooted <;> simp_all
    | cons last before =>
      dsimp only at h
      split at h
      · exact (cons.inj h).1
      · exact absurd (congrArg List.length h) (by simp; omega)
  · exact (cons.inj h).1

theorem clean_under_inj {a b : String} (ha : IsPart a) (hb : IsName b)
    (h : clean (under folder a) = clean (under folder b)) : a = b := by
  have hpush : clean (under folder a) =
      ofParts (isRooted folder) (push (isRooted folder) (trail folder) a).reverse := by
    rw [clean, isAbsolute_under ha, parts_under ha, foldl_append]
    rfl
  rw [hpush, clean_under hb] at h
  exact eq_of_push (ofParts_inj ((normal_trail folder).push ha) (normal_cons_trail hb) h).2

theorem directory_ne (h : IsName name) : directory folder ≠ clean (under folder name) := by
  rw [clean_under h]
  intro heq
  exact cons_ne_self _ _ (ofParts_inj (normal_trail folder) (normal_cons_trail h) heq).2.symm

theorem clean_under_ne (folder : Option String) (h : IsName name) :
    clean (under folder name) ≠ "." ∧ clean (under folder name) ≠ "/" := by
  rw [clean_under h]
  have hr : ∀ rooted, ofParts (isRooted folder) (name :: trail folder).reverse ≠
      ofParts rooted [].reverse := fun rooted heq =>
    cons_ne_nil _ _ (ofParts_inj (normal_cons_trail h) .nil heq).2
  exact ⟨hr false, hr true⟩

theorem splitLast_under (h : IsPart name) :
    (splitLast (under folder name).toList).2 = ((folder.map (· ++ "/")).getD "").toList := by
  have hn : ∀ c ∈ name.toList.reverse, decide (c ≠ '/') = true := by
    intro c hc
    simpa using fun hsl : c = '/' => h (hsl ▸ mem_reverse.1 hc)
  cases folder with
  | none =>
    have hall := dropWhile_eq_nil_iff.2 hn
    simp only [splitLast, under]
    rw [hall]
    rfl
  | some f =>
    have hrev : (under (some f) name).toList.reverse =
        name.toList.reverse ++ '/' :: f.toList.reverse := by simp [under]
    simp only [splitLast, hrev, dropWhile_append_of_pos hn]
    simp

theorem dir_under (h : IsPart name) : dir (under folder name) = directory folder := by
  rw [dir, splitLast_under h, ofList_toList]
  cases folder with
  | none => rfl
  | some f =>
    have hpts : parts (f ++ "/") = parts f ++ [""] := by
      rw [← parts_of_isPart (s := "") (by decide), ← parts_append_slash, append_empty]
    show clean (f ++ "/") = _
    rw [clean, hpts, foldl_append]
    rfl

theorem dir_clean_under (h : IsName name) : dir (clean (under folder name)) = directory folder := by
  rw [clean_under_eq h, dir_under h.isPart, directory_cleanFolder]

/-! ### Directories on the way -/

theorem length_ofParts_cons (h : Normal rooted (part :: done)) :
    (ofParts rooted done.reverse).length ≤ (ofParts rooted (part :: done).reverse).length := by
  have hpart : 0 < part.length := by
    rw [Nat.pos_iff_ne_zero, ne_eq, String.length_eq_zero_iff]
    exact h.ne_empty part mem_cons_self
  rw [reverse_cons]
  by_cases hemp : done = []
  · subst hemp
    have hdot : ".".length = 1 := by decide
    cases rooted with
    | true => simp [ofParts]
    | false =>
      simp only [ofParts, reverse_nil, nil_append, Bool.false_eq_true, if_false, if_true,
        String.intercalate_singleton, cons_ne_nil, hdot]
      omega
  · have hne : done.reverse ≠ [] := by simpa using hemp
    simp only [ofParts, intercalate_append_of_ne_nil hne (cons_ne_nil _ _), if_neg hne]
    cases rooted <;> simp [hemp] <;> omega

theorem length_ofParts_le (h : Normal rooted done) (hup : up <:+ done) :
    (ofParts rooted up.reverse).length ≤ (ofParts rooted done.reverse).length := by
  induction h with
  | nil =>
    obtain rfl := suffix_nil.1 hup
    exact Nat.le_refl _
  | cons hdone hpart hpush ih =>
    obtain rfl | hup := suffix_cons_iff.1 hup
    · exact Nat.le_refl _
    · exact Nat.le_trans (ih hup) (length_ofParts_cons (.cons hdone hpart hpush))

theorem Normal.suffix (h : Normal rooted done) (hup : up <:+ done) : Normal rooted up := by
  induction h with
  | nil =>
    obtain rfl := suffix_nil.1 hup
    exact .nil
  | cons hdone hpart hpush ih =>
    obtain rfl | hup := suffix_cons_iff.1 hup
    · exact .cons hdone hpart hpush
    · exact ih hup

/-! ### Object files -/

theorem isName_append {ext : String} (h : IsPart name) (hext : IsPart ext)
    (hlen : 3 ≤ ext.length) : IsName (name ++ ext) := by
  refine isName_of_length ?_ ?_
  · rw [IsPart, toList_append, mem_append]
    exact fun hsl => hsl.elim h hext
  · rw [String.length_append]
    omega

end MiniJam.Path
