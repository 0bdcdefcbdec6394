import Mathlib.Data.List.Forall2
import MiniJam.Tree.Walk

/-!
# What a walk visits

A walk arrives once at every node that no skipped node lies above, from the top down, and departs
from those that it does not skip.  Of the tree it changes the names of the identifiers it departs
from, and nothing else (`Package.walk_visits`).  A node is told from its equals elsewhere in the tree
by its place among all nodes, which are listed with the nodes above them.
-/

namespace MiniJam

open List

namespace Tree

namespace Node

/-- The node of an expression; references and calls have nodes of their own. -/
def ofExpr : Expr → Node
  | .ref r => .ref r
  | .call c => .call c
  | e => .expr e

/-- The nodes right below a node, from left to right; fields come before methods. -/
def children : Node → List Node
  | package p => p.classes.map .cls
  | cls c => c.fields.map .field ++ c.methods.map .method
  | method m => m.params.map .param ++ (m.body.map .stmt ++ m.result.toList.map ofExpr)
  | stmt (.block _ body) => body.map .stmt
  | stmt (.decl d init) => [.local d, ofExpr init]
  | stmt (.assign lhs rhs) => [.ref lhs, ofExpr rhs]
  | stmt (.call c) => [.call c]
  | stmt (.ifThen _ cond body) => [ofExpr cond, .stmt body]
  | stmt (.ifElse _ cond body other) => [ofExpr cond, .stmt body, .stmt other]
  | stmt (.loop _ cond body) => [ofExpr cond, .stmt body]
  | expr (.unary _ _ operand _) => [ofExpr operand]
  | expr (.binary _ lhs rhs _) => [ofExpr lhs, ofExpr rhs]
  | expr (.newArray _ _ size _) => [ofExpr size]
  | call (.mk callee args _ _ _) => .ref callee :: args.map ofExpr
  | ref (.member base ..) => [.ref base]
  | ref (.elem base index _) => [.ref base, ofExpr index]
  | _ => []

def blank : Ref := .this default .error

/-- A node without the nodes below it. -/
def bare : Node → Node
  | package p => .package { p with classes := [] }
  | cls c => .cls { c with fields := [], methods := [] }
  | method m => .method { m with params := [], body := [], result := none }
  | stmt (.block s _) => .stmt (.block s [])
  | stmt (.decl d _) => .stmt (.decl d (.ref blank))
  | stmt (.assign _ _) => .stmt (.assign blank (.ref blank))
  | stmt (.call _) => .stmt (.call (.mk blank [] default none .error))
  | stmt (.ifThen s _ _) => .stmt (.ifThen s (.ref blank) (.block default []))
  | stmt (.ifElse s _ _ _) => .stmt (.ifElse s (.ref blank) (.block default []) (.block default []))
  | stmt (.loop s _ _) => .stmt (.loop s (.ref blank) (.block default []))
  | expr (.unary s op _ t) => .expr (.unary s op (.ref blank) t)
  | expr (.binary op _ _ t) => .expr (.binary op (.ref blank) (.ref blank) t)
  | expr (.newArray s elem _ t) => .expr (.newArray s elem (.ref blank) t)
  | call (.mk _ _ close b t) => .call (.mk blank [] close b t)
  | ref (.member _ s name b len t) => .ref (.member blank s name b len t)
  | ref (.elem _ _ t) => .ref (.elem blank (.ref blank) t)
  | n => n

theorem sizeOf_ofExpr (e : Expr) : sizeOf (ofExpr e) ≤ 1 + sizeOf e := by
  cases e <;> simp [ofExpr]

theorem sizeOf_lt_of_mem {n c : Node} (h : c ∈ n.children) : sizeOf c < sizeOf n := by
  unfold children at h
  split at h <;>
    grind [sizeOf_ofExpr, → sizeOf_lt_of_mem, cases Package, cases ClassDecl, cases MethodDecl]

/-- The node and all nodes below it, from the top down, each with the nodes above it. -/
def listing (n : Node) : List (List Node × Node) :=
  ([], n) :: (n.children.attach.flatMap fun c => listing c.1).map fun e => (n :: e.1, e.2)
termination_by sizeOf n
decreasing_by exact sizeOf_lt_of_mem c.2

def listings (ns : List Node) : List (List Node × Node) := ns.flatMap listing

theorem listing_eq (n : Node) :
    n.listing = ([], n) :: (listings n.children).map fun e => (n :: e.1, e.2) := by
  rw [listing, listings]
  simp

theorem listings_singleton (n : Node) : listings [n] = n.listing := flatMap_singleton _ _

end Node

def Visit.departure? : Visit → Option Node
  | leave n => some n
  | _ => none

/-- The visits of a node begin and end around the visits of the nodes below it. -/
inductive Nested : List Visit → Prop where
  | nil : Nested []
  | skip (n : Node) {log : List Visit} : Nested log → Nested (.skip n :: log)
  | enter (n : Node) {below log : List Visit} : Nested below → Nested log →
      Nested (.enter n :: (below ++ .leave n :: log))

theorem Nested.append (h : Nested log) (h' : Nested log') : Nested (log ++ log') := by
  induction h with
  | nil => exact h'
  | skip n _ ih => exact .skip n ih
  | enter n hbel _ _ ih =>
    rw [cons_append, append_assoc, cons_append]
    exact .enter n hbel ih

namespace Visitor

open Node

variable (v : Visitor)

def reaches (e : List Node × Node) : Bool := e.1.all fun n => !v.skips n.kind

def reached (es : List (List Node × Node)) : List Node := (es.filter v.reaches).map (·.2)

/-- The node with its name replaced, if it is an identifier. -/
def replaced : Node → Node
  | .ref r => .ref (v.renamed r)
  | n => n

/-- What becomes of a listed node: it is the same with all below it if it is skipped or lies below a
skipped node.  Else it is the same but for a name that is replaced and the nodes below it. -/
def Turns (e e' : List Node × Node) : Prop :=
  e'.1.length = e.1.length ∧
    if v.reaches e = true ∧ v.skips e.2.kind = false then e'.2.bare = (v.replaced e.2).bare
    else e'.2 = e.2

/-- The visits `log` of a walk over the trees `ns`, which turns them into `ns'`. -/
structure Trace (ns : List Node) (log : List Visit) (ns' : List Node) : Prop where
  arrivals : log.filterMap (·.arrival?) = v.reached (listings ns)
  departures : (log.filterMap (·.departure?)).Perm
    ((v.reached (listings ns)).filter fun n => !v.skips n.kind)
  nested : Nested log
  turns : (listings ns).Forall₂ v.Turns (listings ns')

variable {v} {ns ms ns' ms' : List Node} {log log' : List Visit} {n n' : Node}

theorem reaches_cons (e : List Node × Node) :
    v.reaches (n :: e.1, e.2) = (!v.skips n.kind && v.reaches e) := all_cons

theorem reached_listing (n : Node) :
    v.reached n.listing = n :: if v.skips n.kind then [] else v.reached (listings n.children) := by
  have hbel : ((listings n.children).map fun e => (n :: e.1, e.2)).filter v.reaches =
      if v.skips n.kind then [] else
        ((listings n.children).filter v.reaches).map fun e => (n :: e.1, e.2) := by
    rw [filter_map]
    cases hskip : v.skips n.kind <;> simp [Function.comp_def, reaches_cons, hskip]
  rw [listing_eq, reached, filter_cons_of_pos (by rfl), hbel, map_cons]
  cases v.skips n.kind <;> simp [reached, Function.comp_def]

theorem Trace.nil : v.Trace [] [] [] := ⟨rfl, .nil, .nil, .nil⟩

theorem Trace.append (h : v.Trace ns log ns') (h' : v.Trace ms log' ms') :
    v.Trace (ns ++ ms) (log ++ log') (ns' ++ ms') := by
  have hl : ∀ ns ms, listings (ns ++ ms) = listings ns ++ listings ms := fun _ _ =>
    flatMap_append
  have hreac : v.reached (listings (ns ++ ms)) =
      v.reached (listings ns) ++ v.reached (listings ms) := by
    rw [hl, reached, filter_append, map_append, reached, reached]
  refine ⟨?_, ?_, h.nested.append h'.nested, ?_⟩
  · rw [hreac, filterMap_append, h.arrivals, h'.arrivals]
  · rw [hreac, filterMap_append, filter_append]
    exact h.departures.append h'.departures
  · rw [hl, hl]
    exact rel_append h.turns h'.turns

theorem Trace.skip (h : v.skips n.kind = true) : v.Trace [n] [.skip n] [n] := by
  have hreac : v.reached (listings [n]) = [n] := by
    rw [listings_singleton, reached_listing, if_pos h]
  refine ⟨hreac.symm, ?_, .skip n .nil, ?_⟩
  · rw [hreac, filter_cons_of_neg (by simp [h])]
    exact .nil
  · -- Nothing below the node is reached.
    refine forall₂_same.2 fun e he => ⟨rfl, (if_neg fun hvis => ?_).mpr rfl⟩
    rw [listings_singleton, listing_eq] at he
    rcases mem_cons.1 he with rfl | he
    · simp [h] at hvis
    · obtain ⟨e, -, rfl⟩ := mem_map.1 he
      simp [reaches_cons, h] at hvis

theorem Trace.enter (h : v.skips n.kind = false) (hbel : v.Trace n.children log n'.children)
    (hbare : n'.bare = (v.replaced n).bare) :
    v.Trace [n] (.enter n :: log ++ [.leave n]) [n'] := by
  have hreac : v.reached (listings [n]) = n :: v.reached (listings n.children) := by
    rw [listings_singleton, reached_listing, h]
    rfl
  refine ⟨?_, ?_, .enter n hbel.nested .nil, ?_⟩
  · rw [hreac, ← hbel.arrivals]
    simp [Visit.arrival?]
  · rw [hreac, filter_cons_of_pos (by simp [h])]
    have hlog : (Visit.enter n :: log ++ [Visit.leave n]).filterMap Visit.departure? =
        log.filterMap Visit.departure? ++ [n] := by
      rw [cons_append, filterMap_cons_none rfl, filterMap_append]
      rfl
    rw [hlog]
    exact (perm_append_singleton n _).trans (hbel.departures.cons n)
  · rw [listings_singleton, listings_singleton, listing_eq, listing_eq]
    refine .cons ⟨rfl, ?_⟩ ?_
    · rw [if_pos ⟨rfl, h⟩]
      exact hbare
    · rw [forall₂_map_left_iff, forall₂_map_right_iff]
      refine hbel.turns.imp fun e e' htur => ⟨congrArg (· + 1) htur.1, ?_⟩
      rw [reaches_cons, h]
      exact htur.2

variable (v) in
/-- A walk over a part of a tree; `nodes` are the nodes on top of such a part.  If no name is replaced,
the part stays as it is. -/
structure Walks {α : Type} (nodes : α → List Node) (a : α) (w : Walked α) : Prop where
  trace : v.Trace (nodes a) w.1 (nodes w.2)
  quiet : (∀ name, v.rename name = none) → w.2 = a

variable {α : Type}

theorem walks_visit {node : α → Node} {a : α} {below : Walked α}
    (htrac : v.Trace (node a).children below.1 (node below.2).children)
    (hbare : (node below.2).bare = (v.replaced (node a)).bare)
    (hquie : (∀ name, v.rename name = none) → below.2 = a) :
    v.Walks (fun a => [node a]) a (v.visit node a below) := by
  unfold visit
  cases hs : v.skips (node a).kind with
  | true => exact ⟨.skip hs, fun _ => rfl⟩
  | false => exact ⟨.enter hs htrac hbare, hquie⟩

theorem leaf_snd (node : α → Node) (a : α) : (v.leaf node a).2 = a := by
  unfold leaf visit
  split_ifs <;> rfl

theorem walks_leaf {node : α → Node} {a : α} (hbel : (node a).children = [])
    (hsame : v.replaced (node a) = node a) : v.Walks (fun a => [node a]) a (v.leaf node a) := by
  refine walks_visit ?_ (congrArg bare hsame.symm) fun _ => rfl
  rw [hbel]
  exact .nil

theorem renamed_id (s : Span) (name : String) (b : Option Binding) (t : Ty) :
    (Node.ref (v.renamed (.id s name b t))).children = [] := by
  simp only [renamed]
  cases v.rename name <;> rfl

mutual

theorem walks_ref (r : Ref) : v.Walks (fun r => [.ref r]) r (v.ref r) := by
  match r with
  | .this s t => exact walks_leaf rfl rfl
  | .id s name b t =>
    refine walks_visit ?_ rfl fun hn => ?_
    · rw [renamed_id]
      exact .nil
    · simp [renamed, hn]
  | .member base s name b len t =>
    have hb := walks_ref base
    exact walks_visit hb.trace rfl fun hn => by rw [hb.quiet hn]
  | .elem base index t =>
    have hb := walks_ref base
    have hidx := walks_expr index
    refine walks_visit (hb.trace.append hidx.trace) rfl fun hn => ?_
    rw [hb.quiet hn, hidx.quiet hn]

theorem walks_expr (e : Expr) : v.Walks (fun e => [ofExpr e]) e (v.expr e) := by
  match e with
  | .ref r =>
    have hr := walks_ref r
    exact ⟨hr.trace, fun hn => congrArg Expr.ref (hr.quiet hn)⟩
  | .int .. | .bool .. | .newObject .. => exact walks_leaf rfl rfl
  | .unary s op operand t =>
    have hopd := walks_expr operand
    exact walks_visit hopd.trace rfl fun hn => by rw [hopd.quiet hn]
  | .binary op lhs rhs t =>
    have hlhs := walks_expr lhs
    have hrhs := walks_expr rhs
    refine walks_visit (hlhs.trace.append hrhs.trace) rfl fun hn => ?_
    rw [hlhs.quiet hn, hrhs.quiet hn]
  | .newArray s elem size t =>
    have hs := walks_expr size
    exact walks_visit hs.trace rfl fun hn => by rw [hs.quiet hn]
  | .call c =>
    have hc := walks_call c
    exact ⟨hc.trace, fun hn => congrArg Expr.call (hc.quiet hn)⟩

theorem walks_exprs (es : List Expr) : v.Walks (·.map ofExpr) es (v.exprs es) := by
  match es with
  | [] => exact ⟨.nil, fun _ => rfl⟩
  | e :: es =>
    have he := walks_expr e
    have hes := walks_exprs es
    exact ⟨he.trace.append hes.trace, fun hn => congrArg₂ cons (he.quiet hn) (hes.quiet hn)⟩

theorem walks_call (c : Call) : v.Walks (fun c => [.call c]) c (v.call c) := by
  match c with
  | .mk callee args close b t =>
    have hcal := walks_ref callee
    have ha := walks_exprs args
    refine walks_visit (hcal.trace.append ha.trace) rfl fun hn => ?_
    rw [hcal.quiet hn, ha.quiet hn]

end

mutual

theorem walks_stmt (s : Stmt) : v.Walks (fun s => [.stmt s]) s (v.stmt s) := by
  match s with
  | .block s body =>
    have hb := walks_stmts body
    exact walks_visit hb.trace rfl fun hn => by rw [hb.quiet hn]
  | .decl d init =>
    have hd : v.Walks (fun d => [Node.local d]) d (v.leaf .local d) := walks_leaf rfl rfl
    have hs := v.leaf_snd .local d
    have hi := v.walks_expr init
    rw [stmt]
    generalize v.leaf .local d = w at hd hs ⊢
    refine walks_visit (hd.trace.append hi.trace) ?_ fun hn => ?_
    · exact congrArg (fun d => Node.stmt (.decl d (.ref blank))) hs
    · rw [hs, hi.quiet hn]
  | .assign lhs rhs =>
    have hlhs := v.walks_ref lhs
    have hrhs := v.walks_expr rhs
    refine walks_visit (hlhs.trace.append hrhs.trace) rfl fun hn => ?_
    rw [hlhs.quiet hn, hrhs.quiet hn]
  | .call c =>
    have hc := v.walks_call c
    exact walks_visit hc.trace rfl fun hn => by rw [hc.quiet hn]
  | .ifThen s cond body | .loop s cond body =>
    have hcond := v.walks_expr cond
    have hb := walks_stmt body
    refine walks_visit (hcond.trace.append hb.trace) rfl fun hn => ?_
    rw [hcond.quiet hn, hb.quiet hn]
  | .ifElse s cond body other =>
    have hcond := v.walks_expr cond
    have hb := walks_stmt body
    have hoth := walks_stmt other
    refine walks_visit (hcond.trace.append (hb.trace.append hoth.trace)) rfl fun hn => ?_
    rw [hcond.quiet hn, hb.quiet hn, hoth.quiet hn]

theorem walks_stmts (ss : List Stmt) : v.Walks (·.map .stmt) ss (v.stmts ss) := by
  match ss with
  | [] => exact ⟨.nil, fun _ => rfl⟩
  | s :: ss =>
    have hs := walks_stmt s
    have hss := walks_stmts ss
    exact ⟨hs.trace.append hss.trace, fun hn => congrArg₂ cons (hs.quiet hn) (hss.quiet hn)⟩

end

end Visitor

end Tree

end MiniJam
