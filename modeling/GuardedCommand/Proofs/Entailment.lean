import GuardedCommand.Proofs.Background
import GuardedCommand.Proofs.Lowering

/-! # What follows from enabled axioms

The prover is given the term of a formula and the background definitions of the enabled axioms. With
built-in axioms the term means what the formula means, as long as no claim takes a variable out of
its binder, and the definitions are true. So a formula whose term follows from them is true.

* `Node.ClaimsInScope`: no claim takes a variable out of its binder.
* `Idiom.ready_parts`: the parts of a claim are made of parts of the node, so claims on them are in
  scope as well.
* `Idiom.keeps`: a claim in scope keeps the meaning of the node.
* `Registry.says_of_lower`: the term of a formula means what the formula means.
* `Registry.holds_of_entails`: what follows from the enabled axioms is true.
-/

namespace GuardedCommand

/-! ## Claims in scope -/

/-- No claim takes a bound variable out of its binder, neither on the node nor below it. -/
inductive Node.ClaimsInScope (ts : List Trigger) : Node → Prop
  /-- The bound variables of a claimed node are different and do not occur in the parts. -/
  | intro {n : Node}
    (here : ∀ t ∈ ts, ∀ c, t.claimOn n = some c →
      n.binders.Nodup ∧ ∀ k ∈ n.binders, k ∉ c.freeNames)
    (below : ∀ m ∈ n.children, ClaimsInScope ts m) : ClaimsInScope ts n

/-- A node whose names are names for the prover, and on which claims are in scope. -/
structure Node.Ready (ts : List Trigger) (n : Node) : Prop where
  /-- All names are names for the prover. -/
  isName : ∀ x ∈ n.words, Prover.IsName x
  /-- All claims are in scope. -/
  inScope : n.ClaimsInScope ts

namespace Node.Ready

variable {ts : List Trigger}

/-- What is shown of a node is shown of its parts. -/
theorem child {m n : Node} (h : n.Ready ts) (hm : m ∈ n.children) : m.Ready ts := by
  refine ⟨fun x hx => h.isName x (words_subset_of_mem_children hm hx), ?_⟩
  cases h.inScope with
  | intro _ below => exact below m hm

/-- A variable as an expression. -/
theorem map {v : Variable} (h : (Node.var v).Ready ts) : (Node.expr (.map v)).Ready ts := by
  refine ⟨h.isName, .intro (fun t _ c hc => by cases hc) fun m hm => ?_⟩
  rw [List.mem_singleton.mp hm]
  exact h.inScope

/-- An integer expression as an expression. -/
theorem int {e : IntExpr} (h : (Node.int e).Ready ts) : (Node.expr (.int e)).Ready ts := by
  refine ⟨h.isName, .intro (fun t _ c hc => by cases hc) fun m hm => ?_⟩
  rw [List.mem_singleton.mp hm]
  exact h.inScope

/-- The two parts of an element. -/
theorem select {a : Variable} {i : IntExpr} (h : (Node.var (.select a i)).Ready ts) :
    (Node.var a).Ready ts ∧ (Node.int i).Ready ts :=
  ⟨h.child (by simp [children]), h.child (by simp [children])⟩

/-- The variable of an integer expression. -/
theorem var {v : Variable} (h : (Node.int (.var v)).Ready ts) : (Node.var v).Ready ts :=
  h.child (by simp [children])

/-- The two operands of an operator on integers. -/
theorem arith {op : ArithOp} {l r : IntExpr} (h : (Node.int (.binary op l r)).Ready ts) :
    (Node.int l).Ready ts ∧ (Node.int r).Ready ts :=
  ⟨h.child (by simp [children]), h.child (by simp [children])⟩

/-- The range and the body of an aggregate. -/
theorem fold {op : Aggregate} {k : String} {c : Predicate} {e : IntExpr}
    (h : (Node.int (.fold op k c e)).Ready ts) :
    (Node.predicate c).Ready ts ∧ (Node.int e).Ready ts :=
  ⟨h.child (by simp [children]), h.child (by simp [children])⟩

/-- The two sides of a comparison. -/
theorem comp {op : CompOp} {l r : IntExpr} (h : (Node.predicate (.comp op l r)).Ready ts) :
    (Node.int l).Ready ts ∧ (Node.int r).Ready ts :=
  ⟨h.child (by simp [children]), h.child (by simp [children])⟩

/-- The two parts of a connective. -/
theorem connective {op : BoolOp} {p q : Predicate}
    (h : (Node.predicate (.binary op p q)).Ready ts) :
    (Node.predicate p).Ready ts ∧ (Node.predicate q).Ready ts :=
  ⟨h.child (by simp [children]), h.child (by simp [children])⟩

/-- The range and the body of a quantifier. -/
theorem quant {q : Quantifier} {k : String} {c p : Predicate}
    (h : (Node.predicate (.quant q k c p)).Ready ts) :
    (Node.predicate c).Ready ts ∧ (Node.predicate p).Ready ts :=
  ⟨h.child (by simp [children]), h.child (by simp [children])⟩

/-- A strict comparison gives the number before or after as the end of a range. No built-in trigger
claims a sum or a difference, so nothing is claimed there that is not claimed below. -/
theorem binary_const (hts : ∀ t ∈ ts, t ∈ Trigger.builtin) {e : IntExpr} (op : ArithOp) (n : Int)
    (h : (Node.int e).Ready ts) : (Node.int (.binary op e (.const n))).Ready ts := by
  constructor
  · intro x hx
    simp only [words, IntExpr.names, List.append_nil] at hx
    exact h.isName x hx
  · refine .intro (fun t ht c hc => by cases Idiom.of_claimOn (hts t ht) hc) fun m hm => ?_
    rcases List.mem_pair.mp hm with rfl | rfl
    · exact h.inScope
    · exact .intro (fun t ht c hc => by cases Idiom.of_claimOn (hts t ht) hc) (by simp [children])

end Node.Ready

/-! ## Parts of claims -/

section

variable {ts : List Trigger} {k : String}

/-- The end that a comparison gives to a range. -/
theorem Ends.ready {p : Predicate} {r : RangeEnd} (h : Ends k p r)
    (hts : ∀ t ∈ ts, t ∈ Trigger.builtin) (hp : (Node.predicate p).Ready ts) :
    (Node.int r.value).Ready ts := by
  cases h with
  | le | ge => exact hp.comp.2
  | leName | geName => exact hp.comp.1
  | lt | gt => exact hp.comp.2.binary_const hts _ _
  | ltName | gtName => exact hp.comp.1.binary_const hts _ _

/-- The ends of a range. -/
theorem Range.ready {c : Predicate} {b : Bounds} (h : Range k c b)
    (hts : ∀ t ∈ ts, t ∈ Trigger.builtin) (hc : (Node.predicate c).Ready ts) :
    (Node.int b.lo).Ready ts ∧ (Node.int b.hi).Ready ts := by
  cases h with
  | lowerFirst hp hq => exact ⟨hp.ready hts hc.connective.1, hq.ready hts hc.connective.2⟩
  | upperFirst hp hq => exact ⟨hq.ready hts hc.connective.2, hp.ready hts hc.connective.1⟩

/-- The two sides of an equation. -/
theorem Equation.ready {x y : IntExpr} {p : Predicate} (h : Equation x y p)
    (hp : (Node.predicate p).Ready ts) : (Node.int x).Ready ts ∧ (Node.int y).Ready ts := by
  cases h with
  | inOrder => exact hp.comp
  | swapped => exact hp.comp.symm

/-- The two factors of a product. -/
theorem Product.ready {x y e : IntExpr} (h : Product x y e) (he : (Node.int e).Ready ts) :
    (Node.int x).Ready ts ∧ (Node.int y).Ready ts := by
  cases h with
  | inOrder => exact he.arith
  | swapped => exact he.arith.symm

/-- The parts of a claim are parts of the node, or the numbers before and after such parts. -/
theorem Idiom.ready_parts {n : Node} {c : Claim} (h : Idiom n c)
    (hts : ∀ t ∈ ts, t ∈ Trigger.builtin) (hn : n.Ready ts) :
    ∀ e ∈ c.parts, (Node.expr e).Ready ts := by
  -- The parts of a claim stand deeper in the node than its children do.
  cases h with
  | sum hc | prod hc =>
    obtain ⟨hrange, helement⟩ := hn.fold
    obtain ⟨hlo, hhi⟩ := hc.ready hts hrange
    simp [Claim.parts, hlo.int, hhi.int, helement.var.select.1.map]
  | contains hc hp _ =>
    obtain ⟨hrange, hequation⟩ := hn.quant
    obtain ⟨hlo, hhi⟩ := hc.ready hts hrange
    obtain ⟨ha, hm⟩ := hp.ready hequation
    simp [Claim.parts, hlo.int, hhi.int, ha.var.select.1.map, hm.int]
  | @perm a b m =>
    have ha : (Node.var a).Ready ts := hn.child (by simp [Node.children])
    have hb : (Node.var b).Ready ts := hn.child (by simp [Node.children])
    have hm : (Node.int m).Ready ts := hn.child (by simp [Node.children])
    simp [Claim.parts, ha.map, hb.map, hm.int]
  | matrix hc hd =>
    obtain ⟨hrows, hrow⟩ := hn.fold
    obtain ⟨hcols, hcell⟩ := hrow.fold
    obtain ⟨hrlo, hrhi⟩ := hc.ready hts hrows
    obtain ⟨hclo, hchi⟩ := hd.ready hts hcols
    simp [Claim.parts, hrlo.int, hrhi.int, hclo.int, hchi.int, hcell.var.select.1.select.1.map]
  | rowColumn hc he =>
    obtain ⟨hrange, hproduct⟩ := hn.fold
    obtain ⟨hlo, hhi⟩ := hc.ready hts hrange
    obtain ⟨hx, hy⟩ := he.ready hproduct
    obtain ⟨hl, hrow⟩ := hx.var.select.1.select
    obtain ⟨hr, hcol⟩ := hy.var.select
    simp [Claim.parts, hlo.int, hhi.int, hrow.int, hcol.int, hl.map, hr.select.1.map]
  | rowVector hc _ he =>
    obtain ⟨hrange, hproduct⟩ := hn.fold
    obtain ⟨hlo, hhi⟩ := hc.ready hts hrange
    obtain ⟨hx, hy⟩ := he.ready hproduct
    obtain ⟨ha, hrow⟩ := hx.var.select.1.select
    simp [Claim.parts, hlo.int, hhi.int, hrow.int, ha.map, hy.var.select.1.map]

end

/-! ## Claims keep the meaning -/

/-- With the words of the background definitions an interpretation with the usual sums and products
has them still. -/
theorem Interpretation.withBackground_standard (F : String → List Value → Int)
    (R : String → List Value → Prop) :
    ∃ F' R', (Interpretation.standard F R).withBackground = .standard F' R' := by
  refine ⟨fun f vs => if f ∈ Background.functionWords then Background.function f vs else F f vs,
    (Interpretation.standard F R).withBackground.relation, ?_⟩
  simp only [withBackground, standard, apply_ite Value.int]

/-- The words of the background definitions are names for the prover. -/
theorem Background.isName {head : String} (h : head ∈ functionWords ++ relationWords) :
    Prover.IsName head := by
  have hall : ∀ x ∈ functionWords ++ relationWords,
      isIdentifier x = true ∧ x ∉ Prover.words := by decide +kernel
  exact ⟨(hall head h).1, (hall head h).2⟩

namespace Claim

variable {I : Interpretation} {head : String} {parts : List Expr}

/-- A claim that means what an integer expression means keeps its meaning, if its head is a function
of the background definitions. -/
theorem keeps_int {e : IntExpr} (hhead : head ∈ Background.functionWords)
    (h : ∀ s, (Claim.apply head parts).meaning I.withBackground (.int e) s =
      (Node.int e).meaning I.withBackground s) :
    (Claim.apply head parts).Keeps I.withBackground (.int e) := by
  intro ts hts
  have hname := Background.isName (List.mem_append_left _ hhead)
  refine ⟨Term.legible_apply.mpr ⟨hname.isWord, hts.1⟩, fun s => ?_⟩
  have hvalue : (Claim.apply head parts).value I.withBackground s =
      e.value I.withBackground s := Meaning.value.inj (h s)
  rw [Term.value_apply_of_notMem hname.notMem_words, hts.2, Expr.value, ← hvalue]
  exact if_pos hhead

/-- A claim that means what a predicate means keeps its meaning, if its head is a relation of the
background definitions. -/
theorem keeps_predicate {p : Predicate} (hhead : head ∈ Background.relationWords)
    (h : ∀ s, (Claim.apply head parts).meaning I.withBackground (.predicate p) s =
      (Node.predicate p).meaning I.withBackground s) :
    (Claim.apply head parts).Keeps I.withBackground (.predicate p) := by
  intro ts hts
  have hname := Background.isName (List.mem_append_right _ hhead)
  refine ⟨Term.legible_apply.mpr ⟨hname.isWord, hts.1⟩, fun s => ?_⟩
  have hholds : (Claim.apply head parts).Holds I.withBackground s =
      p.Holds I.withBackground s := Meaning.truth.inj (h s)
  rw [Term.holds_apply_of_notMem hname.notMem_words, hts.2, ← hholds]
  exact iff_of_eq (if_pos hhead)

end Claim

/-- A claim in scope keeps the meaning of the node. -/
theorem Idiom.keeps {n : Node} {c : Claim} (h : Idiom n c) (hdistinct : n.binders.Nodup)
    (hfree : ∀ k ∈ n.binders, k ∉ c.freeNames) (F : String → List Value → Int)
    (R : String → List Value → Prop) : c.Keeps (Interpretation.standard F R).withBackground n := by
  obtain ⟨F', R', hI⟩ := Interpretation.withBackground_standard F R
  have hmeaning (s : State) := h.meaning_eq (F := F') (R := R') hdistinct hfree s
  rw [← hI] at hmeaning
  cases h with
  | sum | prod | matrix | rowColumn | rowVector =>
    exact Claim.keeps_int (by simp [Background.functionWords]) hmeaning
  | contains | perm => exact Claim.keeps_predicate (by simp [Background.relationWords]) hmeaning

/-- With built-in triggers, all that is ready can be lowered. -/
theorem Node.lowerable_builtin {ts : List Trigger} (hts : ∀ t ∈ ts, t ∈ Trigger.builtin)
    (F : String → List Value → Int) (R : String → List Value → Prop) :
    Lowerable ts (Interpretation.standard F R).withBackground (Ready ts) where
  isName _ h := h.isName
  child _ h _ hm := h.child hm
  part _ h t ht _ hc := (Idiom.of_claimOn (hts t ht) hc).ready_parts hts h
  keeps n h t ht c hc := by
    cases h.inScope with
    | intro here _ =>
      obtain ⟨hdistinct, hfree⟩ := here t ht c hc
      exact (Idiom.of_claimOn (hts t ht) hc).keeps hdistinct hfree F R

/-! ## Enabled axioms -/

namespace Registry

variable {names : List String} {axioms : List Axiom} {p : Predicate} {t : Term}

/-- The trigger of a built-in axiom is a built-in one. -/
theorem trigger_of_mem_builtin {a : Axiom} (h : a ∈ builtin.axioms) {u : Trigger}
    (hu : a.trigger? = some u) : u ∈ Trigger.builtin := by
  rcases mem_of_mem_foldl_register h with h | h
  · simp only [List.mem_cons, List.not_mem_nil, or_false] at h
    rcases h with rfl | rfl | rfl | rfl | rfl | rfl | rfl <;>
      exact Option.some.inj hu ▸ by simp [Trigger.builtin]
  · cases h

/-- Enabled built-in axioms have built-in triggers. -/
theorem mem_builtin_of_enable (h : builtin.enable names = .ok axioms) :
    ∀ u ∈ Axiom.triggers axioms, u ∈ Trigger.builtin := by
  intro u hu
  obtain ⟨a, ha, hau⟩ := List.mem_filterMap.mp hu
  exact trigger_of_mem_builtin ((mem_of_enableAfter h ha).resolve_left List.not_mem_nil) hau

/-- With enabled built-in axioms the term of a formula means what the formula means, if all claims
are in scope: called functions and relations may mean anything, apart from those that the background
definitions are about. -/
theorem says_of_lower (henable : builtin.enable names = .ok axioms)
    (hnames : ∀ x ∈ p.names .every, Prover.IsName x)
    (hscope : (Node.predicate p).ClaimsInScope (Axiom.triggers axioms))
    (h : p.lower (Axiom.triggers axioms) = .ok t) (F : String → List Value → Int)
    (R : String → List Value → Prop) :
    t.Says (Interpretation.standard F R).withBackground p :=
  Node.standsFor_of_lower (Node.lowerable_builtin (mem_builtin_of_enable henable) F R)
    (.predicate p) ⟨hnames, hscope⟩ t h

/-- A formula is true if its term follows from the enabled built-in axioms and all claims are in
scope. -/
theorem holds_of_entails (henable : builtin.enable names = .ok axioms)
    (hnames : ∀ x ∈ p.names .every, Prover.IsName x)
    (hscope : (Node.predicate p).ClaimsInScope (Axiom.triggers axioms))
    (h : p.lower (Axiom.triggers axioms) = .ok t) (hentails : Axiom.Entails axioms t)
    (F : String → List Value → Int) (R : String → List Value → Prop) (s : State) :
    p.Holds (Interpretation.standard F R).withBackground s := by
  have hterm : t.Holds (Interpretation.standard F R).withBackground s :=
    hentails _ (trueIn_of_enable henable (.standard F R)) s
  exact ((says_of_lower henable hnames hscope h F R).2 s).mp hterm

/-- The formula `perm(b, b, m)`. -/
def samePerm : Predicate := .perm (.name "b") (.name "b") (.name "m")

/-- The trigger of permutations claims the formula as a whole and nothing below it. -/
theorem samePerm_claimsInScope : (Node.predicate samePerm).ClaimsInScope [.arrayPerm] := by
  have hname (x : String) : (Node.var (.name x)).ClaimsInScope [.arrayPerm] := by
    refine .intro (fun u hu c hc => ?_) fun m hm => by cases hm
    rw [List.mem_singleton.mp hu] at hc
    cases hc
  have hcount : (Node.int (.name "m")).ClaimsInScope [.arrayPerm] := by
    refine .intro (fun u hu c hc => ?_) fun m hm => List.mem_singleton.mp hm ▸ hname "m"
    rw [List.mem_singleton.mp hu] at hc
    cases hc
  refine .intro (fun u _ c _ => ⟨List.nodup_nil, fun k hk => by cases hk⟩) fun m hm => ?_
  simp only [samePerm, Node.children, List.mem_cons, List.not_mem_nil, or_false] at hm
  rcases hm with rfl | rfl | rfl
  · exact hname "b"
  · exact hname "b"
  · exact hcount

/-- That an array is a permutation of itself follows from the axiom of permutations, and is true. -/
theorem samePerm_holds :
    let axioms := [builtinAxiom .arrayPerm .arrayPerm]
    let t := Term.apply "perm" [.atom "b", .atom "b", .atom "m"]
    builtin.enable ["ARRAY_PERM"] = .ok axioms ∧
      samePerm.lower (Axiom.triggers axioms) = .ok t ∧ Axiom.Entails axioms t ∧
      ∀ F R s, samePerm.Holds (Interpretation.standard F R).withBackground s := by
  intro axioms t
  have henable : builtin.enable ["ARRAY_PERM"] = .ok axioms := rfl
  have hlower : samePerm.lower [.arrayPerm] = .ok t := by cbv
  have hentails : Axiom.Entails axioms t := by
    intro I htrue s
    obtain ⟨ts, hread, hts⟩ := htrue _ (List.mem_singleton_self _)
    have hplain : Background.arrayPerm.isPlain = true :=
      Background.isPlain_of_mem_builtin _ (by simp [Background.builtin])
    obtain rfl : Background.arrayPerm.terms = ts :=
      Option.some.inj ((Background.readDefinitions_text hplain).symm.trans hread)
    simp only [Background.terms, Background.arrayPerm, List.map_cons, List.map_nil,
      List.forall_mem_cons, Declaration.trueDefinition_fact] at hts
    -- the second definition is that of reflexivity, taken at the values of `b` and `m`
    have hself := hts.2.1 fun x => if x = "a" then s "b" else s "m"
    exact hself
  have hnames : ∀ x ∈ samePerm.names .every, Prover.IsName x := by
    have h : ∀ x ∈ samePerm.names .every, isIdentifier x = true ∧ x ∉ Prover.words := by
      decide +kernel
    exact fun x hx => ⟨(h x hx).1, (h x hx).2⟩
  exact ⟨henable, hlower, hentails,
    holds_of_entails henable hnames samePerm_claimsInScope hlower hentails⟩

end Registry

end GuardedCommand
