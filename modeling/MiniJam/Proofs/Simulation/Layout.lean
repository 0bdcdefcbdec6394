import Mathlib.Data.List.Nodup
import MiniJam.Proofs.Code.Descriptors
import MiniJam.Proofs.Code.Flow
import MiniJam.Proofs.Simulation.Follows

/-!
# Where declarations lie

The words at the bottom of the stack are the static fields and the descriptors of the classes
(`Target.bottom`).  A method that runs has its arguments above them, then the link words of its call
and its local variables; `Target.view` gives these words for an activation.  The code generator puts
every declaration at the place where these words hold it.
-/

namespace MiniJam

open List Assembly Layout

namespace Simulation

open Semantics Machine.Exec

/-! ### Positions in lists -/

section

variable {α β : Type}

theorem reverse_split {l : List α} {k : Nat} {a : α} (h : l[k]? = some a) :
    ∃ above below, below.length = k ∧ l.reverse = above ++ a :: below ∧
      ∀ b, (l.set k b).reverse = above ++ b :: below := by
  obtain ⟨l₁, l₂, rfl, rfl⟩ := split_of_getElem? h
  exact ⟨l₂.reverse, l₁.reverse, by simp, by simp, fun b => by simp⟩

theorem map_update [DecidableEq α] {l : List α} (hl : l.Nodup) {a : α} (hk : l[k]? = some a)
    (f : α → β) (b : β) : (l.map fun x => if x = a then b else f x) = (l.map f).set k b := by
  obtain ⟨hlt, rfl⟩ := List.getElem?_eq_some_iff.1 hk
  refine ext_getElem (by simp) fun i h₁ h₂ => ?_
  simp only [getElem_map, hl.getElem_inj_iff]
  by_cases hik : i = k
  · simp [hik]
  · simp [hik, Ne.symm hik]

end

/-! ### Fields -/

variable {p : Package}

variable {cls : Nat} {c : ClassDecl} {id : MemberId} {f : FieldDecl}

theorem nodup_positions (fields : List FieldDecl) (P : FieldDecl → Bool) :
    ((fields.zipIdx.filter fun x => P x.1).map (·.2)).Nodup := by
  have hnd : (fields.zipIdx.map (·.2)).Nodup := by
    rw [zipIdx_map_snd]
    exact nodup_range'
  exact hnd.sublist (List.filter_sublist.map _)

theorem length_positions (fields : List FieldDecl) (P : FieldDecl → Bool) :
    (fields.zipIdx.filter fun x => P x.1).length = (fields.filter P).length := by
  conv_rhs => rw [← zipIdx_map_fst 0 fields, filter_map, length_map]
  rfl

theorem getElem?_positions {fields : List FieldDecl} (hk : fields[k]? = some f) (hf : P f = true) :
    (fields.zipIdx.filter fun x => P x.1)[((fields.take k).filter P).length]? = some (f, k) := by
  have hk' : fields.zipIdx[k]? = some (f, k) := by simp [getElem?_zipIdx, hk]
  have h := getElem?_filter (f := Prod.fst) hk' hf
  rwa [zipIdx_map_fst] at h

theorem isValue_fields (hp : p.Typed) (hc : p.class? cls = some c) :
    ∀ f ∈ c.fields, f.type.IsValue := by
  intro f hf
  obtain ⟨k, hk⟩ := getElem?_of_mem hf
  exact hp.proper.field ⟨cls, k⟩ f (by simp [Package.signature, Package.field?, hc, hk])

theorem wordsOf_filter (hp : p.Typed) (hc : p.class? cls = some c) (k : Nat)
    (P : FieldDecl → Bool) :
    Layout.wordsOf ((c.fields.take k).filter P) = ((c.fields.take k).filter P).length :=
  total_sizes fun f hf =>
    isValue_fields hp hc f (mem_of_mem_take (mem_of_mem_filter hf))

theorem length_values (hp : p.Typed) (hc : p.class? cls = some c) (fields : Nat → Value) :
    (values p (.object cls fields)).length = instanceWords c := by
  have hws := wordsOf_filter hp hc c.fields.length (!·.isStatic)
  rw [take_length] at hws
  simp only [values, hc, Option.map_some, Option.getD_some, instanceFields, length_map,
    length_positions _ fun f : FieldDecl => !f.isStatic]
  exact hws.symm

theorem exists_fieldAt (hp : p.Typed) (hf : p.field? id = some f) (hstat : f.isStatic = false)
    {e} (he : fieldEntity? p id = some e) :
    ∃ k, e.base = .ob ∧ e.addr = (k : Nat) ∧ FieldAt p id k := by
  obtain ⟨c, hc, hk⟩ := Option.bind_eq_some_iff.1 hf
  have hpos : (instanceFields c)[((c.fields.take id.index).filter (!·.isStatic)).length]? =
      some id.index := by
    rw [instanceFields, getElem?_map,
      getElem?_positions (P := fun f => !f.isStatic) hk (by simp [hstat])]
    rfl
  simp [fieldEntity?, hc, hk, hstat, Bool.beq_eq_decide_eq] at he
  subst he
  refine ⟨((c.fields.take id.index).filter (!·.isStatic)).length, rfl, ?_, ?_, ?_⟩
  · exact congrArg Nat.cast (wordsOf_filter hp hc id.index _)
  · intro fields
    simp [values, hc, hpos]
  · intro fields v
    simp only [values, hc, Option.map_some, Option.getD_some]
    have hnd : (instanceFields c).Nodup := nodup_positions c.fields (!·.isStatic)
    exact map_update hnd hpos fields v

/-! ### Static fields -/

def classStatics (c : ClassDecl) (cls : Nat) : List MemberId :=
  (c.fields.zipIdx.filter (·.1.isStatic)).map fun x => ⟨cls, x.2⟩

/-- The static fields of a package, in the order in which they lie on the stack. -/
def staticIds (p : Package) : List MemberId :=
  p.classes.zipIdx.flatMap fun x => classStatics x.1 x.2

theorem nodup_staticIds (p : Package) : (staticIds p).Nodup := by
  refine nodup_flatMap.2 ⟨fun x _ => ?_, ?_⟩
  · have hnd := (nodup_positions x.1.fields (·.isStatic)).map
      (f := fun i => (⟨x.2, i⟩ : MemberId)) fun i j h => by simpa using h
    rwa [map_map] at hnd
  · have hnd : (p.classes.zipIdx.map (·.2)).Nodup := by
      rw [zipIdx_map_snd]
      exact nodup_range'
    refine (pairwise_map.1 hnd).imp ?_
    intro x y hxy id hx hy
    obtain ⟨i, -, rfl⟩ := mem_map.1 hx
    obtain ⟨j, -, hj⟩ := mem_map.1 hy
    exact hxy (congrArg MemberId.cls hj).symm

theorem length_classStatics (hp : p.Typed) (hc : p.class? cls = some c) :
    (classStatics c cls).length = staticWords c := by
  have hws := wordsOf_filter hp hc c.fields.length (·.isStatic)
  rw [take_length] at hws
  rw [classStatics, length_map, length_positions _ fun f : FieldDecl => f.isStatic]
  exact hws.symm

theorem map_length_classStatics (hp : p.Typed) :
    (p.classes.zipIdx.map fun x => (classStatics x.1 x.2).length) = p.classes.map staticWords := by
  rw [← map_zipIdx_fst staticWords]
  refine map_congr_left fun x hx => length_classStatics hp ?_
  exact mem_zipIdx_iff_getElem?.1 hx

theorem length_staticIds (hp : p.Typed) : (staticIds p).length = staticSize p := by
  rw [staticIds, length_flatMap, map_length_classStatics hp, staticSize]

theorem exists_static (hp : p.Typed) (hf : p.field? id = some f) (hstat : f.isStatic = true) :
    ∃ k : Nat, fieldEntity? p id = some ⟨f.type.size, k, .sb, none, none⟩ ∧
      (staticIds p)[k]? = some id := by
  obtain ⟨c, hc, hk⟩ := Option.bind_eq_some_iff.1 hf
  have hpos : (classStatics c id.cls)[((c.fields.take id.index).filter (·.isStatic)).length]? =
      some id := by
    rw [classStatics, getElem?_map, getElem?_positions hk hstat]
    rfl
  have hcls : p.classes.zipIdx[id.cls]? = some (c, id.cls) := by
    have hc : p.classes[id.cls]? = some c := hc
    simp [getElem?_zipIdx, hc]
  have hget := getElem?_flatMap (f := fun x => classStatics x.1 x.2) hcls hpos
  rw [map_take, map_length_classStatics hp, ← map_take] at hget
  refine ⟨_, ?_, hget⟩
  rw [Int.natCast_add, ← wordsOf_filter hp hc]
  simp [fieldEntity?, hc, hk, hstat, Bool.beq_eq_decide_eq]

/-! ### Code in its place -/

variable {X : Target}

/-- The code of the program without its last instruction. -/
abbrev Target.startCode (X : Target) : Code := Assembly.startCode X.package X.dynamic X.entry

theorem Target.size_program (X : Target) : X.assembly.program.size = X.startCode.size + 1 :=
  size_ofPackage _ _ _

theorem Target.codeAt_start (X : Target) : X.CodeAt 0 X.startCode := Assembly.codeAt_start _ _ _

theorem Target.halt_start (X : Target) :
    X.assembly.program[X.startCode.size]? = some (.make .halt 0 .zr 0) :=
  Assembly.halt_start _ _ _

theorem Target.codeAt_body (X : Target) {id : MemberId} {b : Code.Body}
    (h : X.assembly.body? id = some b) : X.CodeAt b.addr b.code :=
  Assembly.codeAt_body h

/-! ### Descriptors -/

def descriptorCells (part : Code.Part) : List Cell :=
  .raw Machine.noParent :: .low (instanceWords part.decl) ::
    .raw part.instanceBodies.length :: part.instanceBodies.map (.raw ·.addr)

def Target.descriptors (X : Target) : List Cell := X.assembly.parts.flatMap descriptorCells

theorem Target.map_length_descriptorCells (X : Target) :
    (X.assembly.parts.map fun part => (descriptorCells part).length) =
      X.package.classes.map descriptorWords := by
  rw [← map_length_descriptor X.package X.dynamic X.entry]
  refine map_congr_left fun part _ => ?_
  simp [descriptorCells, Code.Part.descriptor]

/-- The words at the bottom of the stack, from the bottom on: the static fields and the
descriptors. -/
def Target.ground (X : Target) (statics : MemberId → Value) : List Cell :=
  (staticIds X.package).map (fun id => .val (statics id)) ++ X.descriptors

def Target.groundWords (X : Target) : Nat :=
  staticSize X.package + total (X.package.classes.map descriptorWords)

theorem Target.length_ground (X : Target) (statics : MemberId → Value) :
    (X.ground statics).length = X.groundWords := by
  rw [Target.ground, length_append, length_map, length_staticIds X.typed,
    Target.descriptors, length_flatMap, X.map_length_descriptorCells, Target.groundWords]

theorem Target.descriptorAddr_le (X : Target) (cls : Nat) :
    descriptorAddr X.package cls ≤ X.groundWords := by
  have hle := total_take_le (X.package.classes.map descriptorWords) cls
  rw [← map_take] at hle
  exact Nat.add_le_add_left hle _

theorem Target.getElem?_ground_static (X : Target) {statics : MemberId → Value} {k : Nat}
    {id : MemberId} (hk : (staticIds X.package)[k]? = some id) :
    (X.ground statics)[k]? = some (.val (statics id)) := by
  have hget : ((staticIds X.package).map fun id => Cell.val (statics id))[k]? =
      some (.val (statics id)) := by simp [hk]
  rw [Target.ground, getElem?_append_left (List.getElem?_eq_some_iff.1 hget).1, hget]

theorem Target.ground_update (X : Target) {id : MemberId}
    (hk : (staticIds X.package)[k]? = some id) (v : Value) :
    X.ground (fun id' => if id' = id then v else statics id') = (X.ground statics).set k (.val v) := by
  have hlt : k < ((staticIds X.package).map fun id => Cell.val (statics id)).length := by
    rw [length_map]
    exact (List.getElem?_eq_some_iff.1 hk).1
  have hupd := map_update (nodup_staticIds X.package) hk (fun id => Cell.val (statics id)) (.val v)
  rw [Target.ground, Target.ground, set_append_left _ _ hlt, ← hupd]
  congr 1
  refine map_congr_left fun id' _ => ?_
  split <;> rfl

theorem Target.getElem?_ground_descriptor (X : Target) (statics : MemberId → Value) {cls k : Nat}
    (hpart : X.assembly.parts[cls]? = some part) (hk : (descriptorCells part)[k]? = some cell) :
    (X.ground statics)[descriptorAddr X.package cls + k]? = some cell := by
  have hget := getElem?_flatMap hpart hk
  rw [map_take, X.map_length_descriptorCells, ← map_take] at hget
  have hlen : ((staticIds X.package).map fun id => Cell.val (statics id)).length =
      staticSize X.package := by rw [length_map, length_staticIds X.typed]
  rw [Target.ground, getElem?_append_right (by rw [hlen, descriptorAddr]; omega), hlen,
    descriptorAddr, Nat.add_assoc, Nat.add_sub_cancel_left]
  exact hget

theorem Target.exists_slot (X : Target) {id : MemberId} {b : Code.Body} {c : ClassDecl}
    (hb : X.assembly.body? id = some b) (hc : X.package.class? id.cls = some c)
    (hstat : b.decl.isStatic = false) : ∃ count, methodSlot c id.index < count ∧
      ∀ statics, (X.ground statics)[descriptorAddr X.package id.cls + 2]? =
          some (.raw (count : Nat)) ∧ (X.ground statics)[descriptorAddr X.package id.cls + 3 +
          methodSlot c id.index]? = some (.raw b.addr) := by
  obtain ⟨part, hp, rfl⟩ := exists_part X.dynamic X.entry hc
  have hs := getElem?_instanceBodies hp hb hstat
  refine ⟨part.instanceBodies.length, (List.getElem?_eq_some_iff.1 hs).1, fun statics => ?_⟩
  refine ⟨X.getElem?_ground_descriptor statics hp rfl, ?_⟩
  rw [Nat.add_assoc]
  refine X.getElem?_ground_descriptor statics hp ?_
  rw [Nat.add_comm 3]
  exact (getElem?_map ..).trans (congrArg (Option.map _) hs)

end Simulation

end MiniJam
