import MiniJam.Proofs.Session.Leftovers

/-!
# What a compilation leaves alone

A session that compiles a source file changes no file but the object file, its draft and its symbol
file.  The source itself is none of these, unless it is named like an object file
(`Session.compileFile_frame`).
-/

namespace MiniJam

open List MiniJam.Path Object

namespace Files

variable {fs : Files} {folder : Option String} {name place x : String}

/-! ### Places with nothing below -/

/-- Nothing is below a place, unless it is a directory. -/
def Firm (fs : Files) (place : String) : Prop :=
  fs.isDirectory place = true ∨ ∀ x, Below place x → fs.at? x = none

/-- Files are in directories only. -/
def Nested (fs : Files) : Prop := ∀ place, place ≠ "" → fs.Firm place

theorem Firm.remove (hf : fs.Firm place) (h : IsName name) (hne : place ≠ clean (under folder name)) :
    (fs.remove (under folder name)).Firm place := by
  obtain hdir | hnone := hf
  · left
    rwa [isDirectory_eq, at?_remove_of_ne h hne, ← isDirectory_eq]
  · refine .inr fun x hx => ?_
    cases hat : (fs.remove (under folder name)).at? x with
    | none => rfl
    | some n =>
      have hsome := isSome_of_remove (y := x) h (by rw [hat]; rfl)
      rw [hnone x hx] at hsome
      cases hsome

/-- Files in the working directory only. -/
theorem nested_of_flat (h : ∀ e ∈ fs.nodes.entries, IsPart e.1) : fs.Nested := by
  refine fun place hne => .inr fun x hx => ?_
  have hsl : '/' ∈ x.toList := hx.subset (by simp)
  have hroot : ¬ (x = "." ∨ x = "/") := by
    rintro (rfl | rfl)
    · exact absurd hsl (by decide)
    · refine not_below_of_length ?_ hx
      exact Nat.one_le_iff_ne_zero.2 fun h => hne (String.length_eq_zero_iff.1 h)
  rw [at?, node?, if_neg hroot, Dict.get?_eq_none_iff.2 fun e he heq => h e he (heq ▸ hsl)]
  rfl

end Files

/-! ### Saving an object -/

theorem Object.at?_save (o : Object) {name x : String} (h : IsName name)
    (hf : fs.Firm (clean (under folder (name ++ ".tmp")))) (hx : ∀ ext ∈ ["", ".tmp", ".sym"],
      x ≠ clean (under folder (name ++ ext))) :
    (o.save fs (under folder name)).1.at? x = fs.at? x := by
  rw [forall_mem_cons, forall_mem_cons, forall_mem_singleton, String.append_empty] at hx
  obtain ⟨hobj, hdraf, hsym⟩ := hx
  unfold save
  rw [draft_under]
  split
  · rfl
  rename_i written hwrit
  obtain ⟨-, hfree, hat⟩ := Files.write_clean (isName_draft h) hwrit
  have hwr : written.at? x = fs.at? x := by rw [hat, if_neg hdraf]
  split
  · rw [Files.at?_remove_of_ne (isName_draft h) hdraf, hwr]
  split
  · exact hwr
  rename_i installed hren
  -- the draft was no directory, so that nothing else moves with it
  have hstill : ∀ e ∈ written.nodes.entries,
      ¬ Files.Below (clean (under folder (name ++ ".tmp"))) e.1 := by
    intro e he hbel
    have hsome := Files.isSome_at?_of_mem he
    rw [hat, if_neg (Files.ne_of_below hbel), hf.resolve_left (by simp [hfree]) _ hbel] at hsome
    cases hsome
  obtain ⟨-, -, -, -, hoth⟩ := Files.rename_under (isName_draft h) h (by simp) hren
  rw [← hwr, ← hoth x hobj fun e he => Files.relocated_eq_iff_of_not_below hobj hdraf (hstill e he)]
  unfold saveSymbols
  rw [symbols_under]
  split
  · rfl
  split
  · rfl
  rename_i files hwrit
  rw [(Files.write_clean (isName_symbols h) hwrit).2.2, if_neg hsym]

/-! ### Extensions -/

theorem Path.ext_spec (path : String) : (ext path).toList <:+ path.toList ∧ IsPart (ext path) ∧
    '.' ∉ (ext path).toList.tail := by
  have hname : (splitLast path.toList).1.reverse = path.toList.reverse.takeWhile (· ≠ '/') :=
    reverse_reverse _
  unfold ext
  rw [hname]
  dsimp only
  split
  · rename_i hdot
    -- the last part ends with a dot and the characters after it
    obtain ⟨after, before, hspl, haft⟩ := eq_append_cons_of_mem (contains_iff_mem.1 hdot)
    have htake : (path.toList.reverse.takeWhile (· ≠ '/')).takeWhile (· ≠ '.') = after := by
      rw [hspl, takeWhile_append_of_pos, takeWhile_cons_of_neg (by simp), append_nil]
      exact fun c hc => decide_eq_true fun heq => haft (heq ▸ hc)
    have hpre := takeWhile_prefix (l := path.toList.reverse) (p := (· ≠ '/'))
    have hsl : '/' ∉ path.toList.reverse.takeWhile (· ≠ '/') := fun hc => by
      simpa using mem_takeWhile_imp hc
    rw [htake, String.toList_ofList]
    rw [hspl] at hpre hsl
    refine ⟨ reverse_prefix.1 (IsPrefix.trans ⟨before, by simp⟩ hpre), ?_, by simpa using haft⟩
    rw [IsPart, String.toList_ofList]
    exact fun hmem => hsl (mem_append_left _ (by simpa using hmem))
  · exact ⟨nil_suffix, by decide, by decide⟩

theorem Path.dropExt_append_ext (path : String) : dropExt path ++ ext path = path := by
  obtain ⟨before, hbef⟩ := (ext_spec path).1
  have hlen : path.length - (ext path).length = before.length := by
    rw [← String.length_toList, ← String.length_toList, ← hbef, length_append]
    omega
  rw [← String.toList_inj, dropExt, hlen, String.toList_append, String.toList_ofList]
  conv_lhs => rw [← hbef, take_left]
  exact hbef

/-- A path leads to none of the files that a compilation writes, unless it has the extension of an
object file. -/
theorem Path.clean_ne_object {path stem : String} (h : ext path ≠ ".mJAM") (hstem : IsPart stem)
    (hpath : dropExt path = under folder stem) : ∀ suffix ∈ ["", ".tmp", ".sym"],
      clean path ≠ clean (under folder (stem ++ ".mJAM" ++ suffix)) := by
  obtain ⟨-, hpart, hdots⟩ := ext_spec path
  have hsrc : path = under folder (stem ++ ext path) := by
    rw [under_append, ← hpath, dropExt_append_ext]
  have hext : IsPart (stem ++ ext path) := by
    rw [IsPart, String.toList_append, mem_append]
    exact fun hsl => hsl.elim hstem hpart
  have hne : ∀ ending : String, IsPart ending → 3 ≤ ending.length → ext path ≠ ending →
      clean path ≠ clean (under folder (stem ++ ending)) := by
    intro ending hend hlen hne heq
    rw [hsrc] at heq
    exact hne ((String.append_right_inj _).1
      (clean_under_inj hext (isName_append hstem hend hlen) heq))
  rw [forall_mem_cons, forall_mem_cons, forall_mem_singleton]
  simp only [String.append_assoc]
  refine ⟨hne _ (by decide) (by decide) h, hne _ (by decide) (by decide) ?_,
    hne _ (by decide) (by decide) ?_⟩
  all_goals
    intro heq
    rw [heq] at hdots
    exact hdots (by decide)

namespace Session

variable {s : Session} {path x : String}

theorem files_compile (s : Session) (name : String) (source : Input) :
    (s.compile name source).2.files = s.files := by
  unfold compile
  dsimp only
  split
  · rfl
  split
  · rfl
  split
  · rfl
  · rfl

theorem at?_compileFile {name : String} (h : IsName name) (hs : s.files.Nested)
    (hobj : Path.object path = under folder name)
    (hx : ∀ ext ∈ ["", ".tmp", ".sym"], x ≠ clean (under folder (name ++ ext))) :
    (s.compileFile path).2.files.at? x = s.files.at? x := by
  have hf : s.files.Firm (clean (under folder (name ++ ".tmp"))) := by
    refine hs _ ?_
    rw [clean_under (isName_draft h)]
    exact ofParts_ne_empty (normal_cons_trail (isName_draft h))
  have hsym := isName_symbols h
  have hsave : ∀ (o : Object) fs, fs.Firm (clean (under folder (name ++ ".tmp"))) →
      (o.save fs (under folder name)).1.at? x = fs.at? x := fun o _ hf => o.at?_save h hf hx
  rw [forall_mem_cons, forall_mem_cons, forall_mem_singleton, String.append_empty] at hx
  obtain ⟨hxobj, -, hxsym⟩ := hx
  unfold compileFile
  rw [hobj]
  dsimp only
  split
  · rfl
  rename_i source hopen
  have hfil := s.files_compile (Path.base path) source
  split
  · rename_i e t hcall
    rw [hcall] at hfil
    dsimp only [discard] at hfil ⊢
    rw [hfil, symbols_under, Files.at?_remove_of_ne hsym hxsym, Files.at?_remove_of_ne h hxobj]
  · rename_i b t hcall
    rw [hcall] at hfil
    have hsav : (t.save (under folder name) b.object).1.files.at? x = s.files.at? x := by
      dsimp only at hfil
      unfold save
      split
      · exact (hsave _ _ (hfil ▸ hf)).trans (by rw [hfil])
      · rw [symbols_under, hfil]
        refine (hsave _ _ (hf.remove hsym (symbols_ne_draft h).symm)).trans ?_
        rw [Files.at?_remove_of_ne hsym hxsym]
    split
    · rename_i hsave
      rwa [hsave] at hsav
    · rename_i hsave
      rwa [hsave] at hsav

/-- Compiling a source file, whether it succeeds or fails, changes no file but the object file, its
draft and its symbol file.  It does not change the source, unless that is named like an object
file. -/
theorem compileFile_frame (s : Session) (hs : s.files.Nested) (path : String) :
    (∀ q, (∀ target ∈ [Path.object path, Object.draft (Path.object path),
          Path.symbols (Path.object path)], clean q ≠ clean target) →
        (s.compileFile path).2.files.at? (clean q) = s.files.at? (clean q)) ∧
      (Path.ext path ≠ ".mJAM" →
        (s.compileFile path).2.files.at? (clean path) = s.files.at? (clean path)) := by
  obtain ⟨folder, stem, hstem, hpath⟩ := exists_under (dropExt path)
  have hobject : Path.object path = under folder (stem ++ ".mJAM") := by
    rw [Path.object, hpath, under_append]
  have h : IsName (stem ++ ".mJAM") := isName_append hstem (by decide) (by decide)
  refine ⟨fun q hq => at?_compileFile h hs hobject ?_, fun hext => ?_⟩
  · rw [hobject, Object.draft_under, Object.symbols_under] at hq
    simpa using hq
  · exact at?_compileFile h hs hobject (clean_ne_object hext hstem hpath)

/-- The source stays while the object takes the place of an earlier one. -/
theorem compileFile_frame_outdated : Path.ext "M" ≠ ".mJAM" ∧ ∃ s,
    start .default outdated .empty .empty = .ok s ∧ s.files.Nested ∧
      (s.compileFile "M").2.files.at? (clean "M") = some (.file callsMethod 0) := by
  have hext : Path.ext "M" ≠ ".mJAM" := by decide +kernel
  have hfile : outdated.at? (clean "M") = some (.file callsMethod 0) := by decide +kernel
  have hnested : outdated.Nested := Files.nested_of_flat (by decide)
  obtain ⟨s, hstart, hfiles⟩ : ∃ s, start .default outdated .empty .empty = .ok s ∧
      s.files = outdated := ⟨_, rfl, rfl⟩
  rw [← hfiles] at hnested
  refine ⟨hext, s, hstart, hnested, ?_⟩
  rw [(compileFile_frame s hnested "M").2 hext, hfiles, hfile]

def misnamed : Files := ⟨⟨[("M.mJAM", .file [] 0)]⟩, 0, 1⟩

/-- A source that is named like an object file is removed if it cannot be compiled. -/
theorem compileFile_removes_misnamed : misnamed.at? (clean "M.mJAM") = some (.file [] 0) ∧ ∃ s,
    start .default misnamed .empty .empty = .ok s ∧
      (s.compileFile "M.mJAM").2.files.at? (clean "M.mJAM") = none :=
  ⟨by decide +kernel, _, rfl, by decide +kernel⟩

end Session

end MiniJam
