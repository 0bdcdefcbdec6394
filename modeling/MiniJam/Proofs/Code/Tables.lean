import Mathlib.Data.List.Nodup
import MiniJam.Proofs.Code.Resolved
import MiniJam.Proofs.Simulation.Memory

/-!
# The tables of symbols

A table whose addresses increase is sorted already, and a search in it finds what it is meant to find:
`firstAbove` splits such a table at an address.  The methods of a program and the descriptors of its
classes stand one behind the other, so that their tables are of this kind (`Symbols.Describes`).
-/

namespace MiniJam

open List Layout

namespace Symbols

/-! ### Searching a table -/

/-- The addresses of the entries increase. -/
def Increasing (table : Array Entry) : Prop := table.toList.Pairwise fun e e' => e.addr < e'.addr

variable {table : Array Entry} {addr : Int} {e : Entry}

theorem Increasing.sortEntries_eq (h : Increasing table) : sortEntries table = table := by
  have hle : table.toList.Pairwise fun e e' => decide (e.addr ≤ e'.addr) = true :=
    h.imp fun hlt => decide_eq_true (Int.le_of_lt hlt)
  rw [sortEntries, mergeSort_of_pairwise hle, Array.toArray_toList]

theorem Increasing.lt_iff (h : Increasing table) {i j : Nat} {e' : Entry} (hi : table[i]? = some e)
    (hj : table[j]? = some e') : e.addr < e'.addr ↔ i < j := by
  obtain ⟨hilt, rfl⟩ := Array.getElem?_eq_some_iff.1 hi
  obtain ⟨hjlt, rfl⟩ := Array.getElem?_eq_some_iff.1 hj
  have hlt := pairwise_iff_getElem.1 h
  refine ⟨fun hij => ?_, hlt i j hilt hjlt⟩
  rcases Nat.lt_trichotomy i j with hlt' | rfl | hgt
  · exact hlt'
  · exact absurd hij (Int.lt_irrefl _)
  · exact absurd (hlt j i hjlt hilt hgt) (Int.lt_asymm hij)

/-- The halving splits the table: the entries in front of the position it ends at lie at the address or
below it, and the others above it. -/
theorem Increasing.firstAbove_spec (h : Increasing table) (addr : Int) {lo hi : Nat} (hle : lo ≤ hi)
    (hsize : hi ≤ table.size) (hlo : ∀ i e, table[i]? = some e → i < lo → e.addr ≤ addr)
    (hhi : ∀ i e, table[i]? = some e → hi ≤ i → addr < e.addr) :
    firstAbove table addr lo hi ≤ hi ∧
      ∀ i e, table[i]? = some e → (i < firstAbove table addr lo hi ↔ e.addr ≤ addr) := by
  fun_induction firstAbove table addr lo hi with
  | case1 lo hi hlt mid m hm habov ih =>
    -- The entries from the middle on lie above the address.
    obtain ⟨hend, hspl⟩ := ih (by omega) (by omega) hlo fun i e hi hmid => by
      rcases Nat.eq_or_lt_of_le hmid with rfl | hmid
      · cases hm.symm.trans hi
        exact habov
      · exact Int.lt_trans habov ((h.lt_iff hm hi).2 hmid)
    exact ⟨by omega, hspl⟩
  | case2 lo hi hlt mid m hm habov ih =>
    -- The entries up to the middle do not.
    refine ih (by omega) hsize (fun i e hi hmid => ?_) hhi
    rcases Nat.eq_or_lt_of_le (Nat.le_of_lt_succ hmid) with rfl | hmid
    · cases hm.symm.trans hi
      exact Int.not_lt.1 habov
    · exact Int.le_trans (Int.le_of_lt ((h.lt_iff hi hm).2 hmid)) (Int.not_lt.1 habov)
  | case3 lo hi hlt mid hm =>
    have hout := Array.getElem?_eq_none_iff.1 hm
    omega
  | case4 lo hi hlt =>
    obtain rfl : lo = hi := by omega
    refine ⟨Nat.le_refl _, fun i e hi => ⟨hlo i e hi, fun hle => Nat.lt_of_not_le fun hge => ?_⟩⟩
    exact absurd (hhi i e hi hge) (Int.not_lt.2 hle)

variable {s : Symbols}

/-- The entry that contains an address is the last one that does not lie above it. -/
theorem Increasing.methodContaining?_eq (h : Increasing table) (hs : s.methods = some table)
    (he : e ∈ table.toList) (hle : e.addr ≤ addr)
    (hnext : ∀ e' ∈ table.toList, e.addr < e'.addr → addr < e'.addr) :
    s.methodContaining? addr = some e := by
  obtain ⟨k, hk⟩ := getElem?_of_mem he
  rw [Array.getElem?_toList] at hk
  obtain ⟨hend, hspl⟩ := h.firstAbove_spec addr (Nat.zero_le _) (Nat.le_refl _)
    (fun _ _ _ h => absurd h (Nat.not_lt_zero _)) fun i e hi hge => by
      have hlt := (Array.getElem?_eq_some_iff.1 hi).1
      omega
  have hfst : firstAbove table addr 0 table.size = k + 1 := by
    have hbel := (hspl k e hk).2 hle
    rcases Nat.eq_or_lt_of_le (Nat.succ_le_of_lt hbel) with heq | hlt
    · exact heq.symm
    · -- The entry behind it lies above the address.
      have hnex : table[k + 1]? = some table[k + 1] := Array.getElem?_eq_getElem (by omega)
      have habov := hnext table[k + 1] (Array.getElem_mem_toList _)
        ((h.lt_iff hk hnex).2 (Nat.lt_succ_self k))
      exact absurd ((hspl _ _ hnex).1 hlt) (Int.not_le.2 habov)
  simp only [methodContaining?, hs, Option.getD_some, hfst, hk]

theorem Increasing.entryAt?_eq_some_iff (h : Increasing table) :
    entryAt? (some table) addr = some e ↔ e ∈ table.toList ∧ e.addr = addr := by
  rw [entryAt?, Option.getD_some, ← Array.find?_toList]
  constructor
  · intro hf
    exact ⟨mem_of_find?_eq_some hf, by simpa using List.find?_some hf⟩
  · rintro ⟨hmem, rfl⟩
    have hnd : (table.toList.map (·.addr)).Nodup :=
      pairwise_map.2 (h.imp fun hlt => Int.ne_of_lt hlt)
    cases hf : table.toList.find? (·.addr == e.addr) with
    | none => exact absurd (List.find?_eq_none.1 hf e hmem) (by simp)
    | some e' =>
      exact congrArg some (inj_on_of_nodup_map hnd (mem_of_find?_eq_some hf) hmem
        (by simpa using List.find?_some hf))

end Symbols

namespace Assembly

open Code

/-! ### The entries of a program -/

def methodEntry (part : Part) (b : Body) : Entry :=
  ⟨b.addr, part.decl.name ++ "." ++ b.decl.name, b.decl.span.line⟩

def classEntry (p : Package) (part : Part) : Entry :=
  ⟨descriptorAddr p part.cls, part.decl.name, part.decl.span.line⟩

def methodEntries (a : Assembly) : List Entry :=
  a.parts.flatMap fun part => part.bodies.map (methodEntry part)

def classEntries (a : Assembly) : List Entry := a.parts.map (classEntry a.package)

variable {p : Package} {dynamic : Bool} {entry : MemberId} {e : Entry}

theorem mem_methodEntries : e ∈ (ofPackage p dynamic entry).methodEntries ↔ ∃ id part b,
    (ofPackage p dynamic entry).parts[id.cls]? = some part ∧
    (ofPackage p dynamic entry).body? id = some b ∧ e = methodEntry part b := by
  simp only [methodEntries, mem_flatMap, mem_map]
  constructor
  · rintro ⟨part, hp, b, hb, rfl⟩
    obtain ⟨cls, hcls⟩ := getElem?_of_mem hp
    obtain ⟨index, hidx⟩ := getElem?_of_mem hb
    exact ⟨⟨cls, index⟩, part, b, hcls, by rw [body?, hcls]; exact hidx, rfl⟩
  · rintro ⟨id, part, b, hp, hb, rfl⟩
    rw [body?, hp] at hb
    exact ⟨part, mem_of_getElem? hp, b, mem_of_getElem? hb, rfl⟩

/-- The code of a method ends with its only return. -/
theorem exists_return (hp : p.Typed) {id : MemberId} {b : Body}
    (hb : (ofPackage p dynamic entry).body? id = some b) : ∃ last words, b.code.size = last + 1 ∧
    (ofPackage p dynamic entry).program[b.addr + last]? =
      some (.make .ret words .zr (paramWords b.decl)) := by
  obtain ⟨hm, hcode⟩ := method_of_body hb
  obtain ⟨last, words, hs, hl, -⟩ :=
    emits_ofMethod dynamic (hp.methods id b.decl hm) b.addr (allows_all _)
  rw [← hcode] at hs hl
  exact ⟨last, words, hs, (codeAt_body hb).getElem? hl⟩

theorem increasing_methods (hp : p.Typed) :
    (ofPackage p dynamic entry).methodEntries.Pairwise fun e e' => e.addr < e'.addr := by
  have hpos : ∀ {cls : Nat} {part : Part} {b : Body}, (ofPackage p dynamic entry).parts[cls]? = some part →
      b ∈ part.bodies → part.start < b.addr ∧ 0 < b.code.size ∧ b.addr + b.code.size ≤ part.start + part.code.size := by
    intro cls part b hpart hb
    obtain ⟨index, hidx⟩ := getElem?_of_mem hb
    have hbody : (ofPackage p dynamic entry).body? ⟨cls, index⟩ = some b := by
      rw [body?, hpart]
      exact hidx
    obtain ⟨last, -, hs, -⟩ := exists_return hp hbody
    obtain ⟨hsta, hend⟩ := body_within hpart hidx
    have hcode := part.descriptorStart_le
    exact ⟨hsta, by omega, by omega⟩
  refine pairwise_flatMap.2 ⟨fun part hpart => ?_, ?_⟩
  · obtain ⟨cls, hcls⟩ := getElem?_of_mem hpart
    refine pairwise_map.2 ((pairwise_map.1 (laid_part hcls).pairwise).imp_of_mem ?_)
    intro b b' hb _ hle
    have hle : b.addr + b.code.size ≤ b'.addr := hle
    have hs := (hpos hcls hb).2.1
    exact Int.ofNat_lt.2 (by omega)
  · refine (pairwise_map.1 laid_ofPackage.pairwise).imp_of_mem ?_
    intro part part' hpart hpart' hle e he e' he'
    obtain ⟨b, hb, rfl⟩ := mem_map.1 he
    obtain ⟨b', hb', rfl⟩ := mem_map.1 he'
    obtain ⟨cls, hcls⟩ := getElem?_of_mem hpart
    obtain ⟨cls', hcls'⟩ := getElem?_of_mem hpart'
    obtain ⟨-, hs, hend⟩ := hpos hcls hb
    obtain ⟨hsta, -⟩ := hpos hcls' hb'
    have hle : part.start + part.code.size ≤ part'.start := hle
    exact Int.ofNat_lt.2 (by omega)

theorem increasing_classes :
    (ofPackage p dynamic entry).classEntries.Pairwise fun e e' => e.addr < e'.addr := by
  refine pairwise_iff_getElem.2 fun i j hi hj hij => ?_
  simp only [classEntries, length_map] at hi hj
  have hd := part_decl (getElem?_eq_getElem hi)
  have hd' := part_decl (getElem?_eq_getElem hj)
  simp only [classEntries, getElem_map, classEntry, hd.2.1, hd'.2.1, Int.ofNat_lt]
  -- A descriptor has at least the words for the parent, the size and the number of methods.
  have hws : (p.classes.map descriptorWords)[i]? = some (descriptorWords
      (ofPackage p dynamic entry).parts[i].decl) := by
    have hcls : p.classes[i]? = _ := hd.1
    rw [getElem?_map, hcls]
    rfl
  have hnext := Simulation.total_take_succ hws
  have hmono := Simulation.total_take_mono (p.classes.map descriptorWords) (show i + 1 ≤ j from hij)
  have hpos : 0 < descriptorWords (ofPackage p dynamic entry).parts[i].decl :=
    Nat.add_pos_left (by decide) _
  show descriptorAddr p i < descriptorAddr p j
  simp only [descriptorAddr, map_take]
  omega

theorem symbols_eq (hp : p.Typed) : (ofPackage p dynamic entry).symbols =
    { source := p.file
      lines := some ((ofPackage p dynamic entry).code.items.map (·.line)).toArray
      methods := some (ofPackage p dynamic entry).methodEntries.toArray
      classes := some (ofPackage p dynamic entry).classEntries.toArray } := by
  have hmeths : Symbols.Increasing (ofPackage p dynamic entry).methodEntries.toArray :=
    increasing_methods hp
  have hcls : Symbols.Increasing (ofPackage p dynamic entry).classEntries.toArray :=
    increasing_classes
  have hsrt : (ofPackage p dynamic entry).symbols =
    { source := p.file
      lines := some ((ofPackage p dynamic entry).code.items.map (·.line)).toArray
      methods := some (Symbols.sortEntries (ofPackage p dynamic entry).methodEntries.toArray)
      classes := some (Symbols.sortEntries (ofPackage p dynamic entry).classEntries.toArray) } := rfl
  rw [hsrt, hmeths.sortEntries_eq, hcls.sortEntries_eq]

end Assembly

/-! ### Compiled programs -/

/-- The symbols describe the code of a program. -/
structure Symbols.Describes (s : Symbols) (a : Assembly) : Prop where
  /-- Every instruction has a line. -/
  lines : ∃ lines, s.lines = some lines ∧ lines.size = a.program.size
  /-- There is one entry for each method, in the order of their addresses. -/
  methods : ∃ table, s.methods = some table ∧ Increasing table ∧
    table.toList.map (fun e => (e.name, e.line)) = a.package.classes.flatMap fun c =>
      c.methods.map fun m => (c.name ++ "." ++ m.name, m.span.line)
  /-- The entry of a method is found at its first address, and it contains the addresses of the method,
  up to its return. -/
  method : ∀ (id : MemberId) (c : ClassDecl) (m : MethodDecl), a.package.class? id.cls = some c →
    c.methods[id.index]? = some m → ∃ b last words e, a.body? id = some b ∧ b.decl = m ∧
      a.CodeAt b.addr b.code ∧ b.code.size = last + 1 ∧
      a.program[b.addr + last]? = some (.make .ret words .zr (paramWords m)) ∧
      e = ⟨b.addr, c.name ++ "." ++ m.name, m.span.line⟩ ∧
      (∀ x : Nat, b.Spans x → s.methodContaining? x = some e) ∧
      ∀ x : Int, s.methodAt? x = some e ↔ x = b.addr
  /-- At other addresses there is no entry of a method. -/
  methodless : ∀ x : Int, (∀ id b, a.body? id = some b → x ≠ b.addr) → s.methodAt? x = none
  /-- There is one entry for each class, in the order of their descriptors. -/
  classes : ∃ table, s.classes = some table ∧ Increasing table ∧
    table.toList.map (fun e => (e.name, e.line)) =
      a.package.classes.map fun c => (c.name, c.span.line)
  /-- The entry of a class is found at the address of its descriptor. -/
  cls : ∀ i c, a.package.class? i = some c → s.classAt? (descriptorAddr a.package i) =
      some ⟨descriptorAddr a.package i, c.name, c.span.line⟩

namespace Assembly

open Code

variable {p : Package} {dynamic : Bool} {entry : MemberId}

theorem map_methodEntries : (ofPackage p dynamic entry).methodEntries.map (fun e => (e.name, e.line)) =
    p.classes.flatMap fun c => c.methods.map fun m => (c.name ++ "." ++ m.name, m.span.line) := by
  have hpts : (ofPackage p dynamic entry).parts.map (fun part => part.bodies.map fun b =>
        (part.decl.name ++ "." ++ b.decl.name, b.decl.span.line)) =
      p.classes.map fun c => c.methods.map fun m => (c.name ++ "." ++ m.name, m.span.line) := by
    rw [← map_zipIdx_fst (fun c : ClassDecl => c.methods.map fun m =>
      (c.name ++ "." ++ m.name, m.span.line))]
    refine map_eq_of_forall₂ ?_ forall₂_parts
    rintro x part ⟨hdecl, -, hbod⟩
    rw [← map_decl_bodies p dynamic (part.start + 1) x.1.methods, ← hbod, map_map, hdecl]
    rfl
  have hf := congrArg List.flatten hpts
  rw [← flatMap_def, ← flatMap_def] at hf
  rw [← hf, methodEntries, map_flatMap]
  simp only [map_map]
  rfl

theorem map_classEntries : (ofPackage p dynamic entry).classEntries.map (fun e => (e.name, e.line)) =
    p.classes.map fun c => (c.name, c.span.line) := by
  rw [classEntries, map_map, ← map_zipIdx_fst (fun c : ClassDecl => (c.name, c.span.line))]
  refine map_eq_of_forall₂ ?_ forall₂_parts
  rintro x part ⟨hdecl, -⟩
  rw [← hdecl]
  rfl

theorem describes_ofPackage (hp : p.Typed) (dynamic : Bool) (entry : MemberId) :
    (ofPackage p dynamic entry).symbols.Describes (ofPackage p dynamic entry) := by
  have hmeths : Symbols.Increasing (ofPackage p dynamic entry).methodEntries.toArray :=
    increasing_methods hp
  have hcls : Symbols.Increasing (ofPackage p dynamic entry).classEntries.toArray :=
    increasing_classes
  rw [symbols_eq hp]
  refine ⟨⟨_, rfl, by simp [size_program, Code.size]⟩, ⟨_, rfl, hmeths, map_methodEntries⟩, ?method,
    fun x hx => ?methodless, ⟨_, rfl, hcls, map_classEntries⟩, fun i c hc => ?cls⟩
  case method =>
    intro id c m hc hm
    have hmeth : p.method? id = some m := by
      rw [Package.method?, show p.class? id.cls = some c from hc]
      exact hm
    obtain ⟨b, hb, rfl, -⟩ := exists_body dynamic entry hmeth
    obtain ⟨part, hpart, rfl⟩ := exists_part dynamic entry hc
    obtain ⟨last, words, hsize, hlast⟩ := exists_return hp hb
    have hmem := mem_methodEntries.2 ⟨id, part, b, hpart, hb, rfl⟩
    refine ⟨b, last, words, methodEntry part b, hb, rfl, codeAt_body hb, hsize, hlast, rfl,
      fun x hx => hmeths.methodContaining?_eq rfl hmem (Int.ofNat_le.2 hx.1) ?_, fun x => ?_⟩
    · -- The methods behind this one start behind its last instruction.
      intro e' he' hlt
      obtain ⟨id', part', b', hpart', hb', rfl⟩ := mem_methodEntries.1 he'
      have hlt : b.addr < b'.addr := Int.ofNat_lt.1 hlt
      have hne : id ≠ id' := by
        rintro rfl
        cases hb.symm.trans hb'
        exact Nat.lt_irrefl _ hlt
      have hdis := bodies_disjoint hb hb' hne
      have hspan := hx.2
      exact Int.ofNat_lt.2 (by omega)
    · rw [Symbols.methodAt?, hmeths.entryAt?_eq_some_iff]
      exact ⟨fun h => h.2.symm, fun h => ⟨hmem, h.symm⟩⟩
  case methodless =>
    cases hf : Symbols.entryAt? (some (ofPackage p dynamic entry).methodEntries.toArray) x with
    | none => exact hf
    | some e =>
      obtain ⟨hmem, rfl⟩ := hmeths.entryAt?_eq_some_iff.1 hf
      obtain ⟨id, part, b, -, hb, rfl⟩ := mem_methodEntries.1 hmem
      exact absurd rfl (hx id b hb)
  case cls =>
    obtain ⟨part, hpart, rfl⟩ := exists_part dynamic entry hc
    obtain ⟨-, rfl, -⟩ := part_decl hpart
    refine hcls.entryAt?_eq_some_iff.2 ⟨?_, rfl⟩
    exact mem_map_of_mem (mem_of_getElem? hpart)

end Assembly

/-- The symbols of a compiled source describe its code. -/
theorem Compiler.symbols_describe {c : Compiler} {name : String} {source : List UInt8} {object : Object}
    (h : c.compile name source = .ok object) :
    ∃ p entry s, Package.checked? (Path.base name) source = some p ∧ p.entry = some entry ∧
      object.program = (Assembly.ofPackage p c.dynamic entry).program ∧ object.symbols = some s ∧
      s.Describes (Assembly.ofPackage p c.dynamic entry) := by
  obtain ⟨p, entry, hp, htyped, hentry, hprogram, hsize⟩ := Compiler.exists_checked h
  rw [hprogram] at hsize
  have hobject := (Compiler.compile_of_checked name hp).trans
    (Compiler.object_of_typed htyped hentry c hsize)
  cases h.symm.trans hobject
  exact ⟨p, entry, _, hp, hentry, rfl, rfl, Assembly.describes_ofPackage htyped c.dynamic entry⟩

/-- The method that the program calls is found at the first of its addresses. -/
theorem Compiler.symbols_describe_callsMethod : ∃ object s e,
    Compiler.compile ⟨false, 1024⟩ "M" callsMethod = .ok object ∧ object.symbols = some s ∧
    s.methodAt? e.addr = some e ∧ s.methodContaining? e.addr = some e := by
  obtain ⟨p, object, m, hp, -, hobject, hm, -⟩ := callsMethod_evaluated false
  have hcompile := (Compiler.compile_of_checked "M" hp).trans hobject
  obtain ⟨q, entry, s, hq, -, -, hs, hdescribes⟩ := Compiler.symbols_describe hcompile
  cases hq.symm.trans hp
  obtain ⟨c, hc, hm⟩ := Option.bind_eq_some_iff.1 hm
  obtain ⟨b, last, -, e, -, -, -, hsize, -, rfl, hspans, hat⟩ := hdescribes.method ⟨3, 0⟩ c m hc hm
  exact ⟨object, s, _, hcompile, hs, (hat _).2 rfl, hspans _ ⟨Nat.le_refl _, by omega⟩⟩

end MiniJam
