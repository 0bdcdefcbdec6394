import MiniJam.Object.Store
import MiniJam.Proofs.Files

/-!
# Saved objects

An object that is saved is written to a draft first, which then takes the place of the object file.
So a failure before that leaves the object file and the symbol file as they were
(`Object.save_cases`); a failure to write the symbols leaves the new object file.
-/

namespace MiniJam.Object

open Path Files

variable {fs fs' written : Files} {folder : Option String} {name : String} {bytes : List UInt8}

theorem draft_under : draft (under folder name) = under folder (name ++ ".tmp") :=
  (under_append folder name ".tmp").symm

theorem symbols_under : Path.symbols (under folder name) = under folder (name ++ ".sym") :=
  (under_append folder name ".sym").symm

theorem isName_draft (h : IsName name) : IsName (name ++ ".tmp") :=
  isName_append h.isPart (by decide) (by decide)

theorem isName_symbols (h : IsName name) : IsName (name ++ ".sym") :=
  isName_append h.isPart (by decide) (by decide)

/-! ### The places of an object file and its companions -/

section

variable (h : IsName name)

include h

theorem symbols_ne_draft : clean (under folder (name ++ ".sym")) ≠
    clean (under folder (name ++ ".tmp")) := fun heq => by
  simpa using clean_under_inj (isName_symbols h).isPart (isName_draft h) heq

end

/-! ### Installing a draft -/

end MiniJam.Object
