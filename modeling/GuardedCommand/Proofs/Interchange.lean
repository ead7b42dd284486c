import GuardedCommand.Interchange.Statement
import GuardedCommand.Proofs.JsonText

/-! # Reading trees that were written

Formulas, statements and programs are read from their text as the trees they were written from.
Names may hold any characters. Integer literals, rows and columns have to be of 64 bits, and the
text must not nest deeper than it may be read.

* `Predicate.Fits`, …, `Program.Fits`: the trees whose numbers are of 64 bits.
* `Predicate.decode_toJson`, …, `Statement.decode_toJson`: a value is read as the tree it was
  written from, given that many levels of nesting.
* `Program.ofText?_compact`: trees of all kinds are read from their text, programs also from the
  list of their statements.

An expression is read as a variable if it can be. The words for the nodes of variables are not those
of integers, so the two kinds of expressions are told apart.
-/

namespace GuardedCommand

/-! ## Trees with numbers of 64 bits -/

mutual

/-- All integer literals in a variable are of 64 bits. -/
def Variable.Fits : Variable → Prop
  | .name _ => True
  | .select b i => b.Fits ∧ i.Fits
  | .store b i e => b.Fits ∧ i.Fits ∧ e.Fits

/-- All integer literals in an expression are of 64 bits. -/
def Expr.Fits : Expr → Prop
  | .map v => v.Fits
  | .int e => e.Fits

/-- All integer literals in an integer expression are of 64 bits. -/
def IntExpr.Fits : IntExpr → Prop
  | .const c => -Nat.pow 2 63 ≤ c ∧ c < Nat.pow 2 63
  | .var v => v.Fits
  | .negate e => e.Fits
  | .binary _ l r => l.Fits ∧ r.Fits
  | .call _ args => Expr.FitsAll args
  | .fold _ _ c e => c.Fits ∧ e.Fits
  | .count _ c p => c.Fits ∧ p.Fits

/-- All integer literals in a predicate are of 64 bits. -/
def Predicate.Fits : Predicate → Prop
  | .const _ => True
  | .not p => p.Fits
  | .binary _ l r => l.Fits ∧ r.Fits
  | .comp _ l r => l.Fits ∧ r.Fits
  | .call _ args => Expr.FitsAll args
  | .perm a b n => a.Fits ∧ b.Fits ∧ n.Fits
  | .quant _ _ c p => c.Fits ∧ p.Fits

/-- All integer literals in arguments are of 64 bits. -/
def Expr.FitsAll : List Expr → Prop
  | [] => True
  | e :: es => e.Fits ∧ Expr.FitsAll es

end

/-- The row and the column are of 64 bits. -/
def Position.Fits (p : Position) : Prop :=
  p.row < Nat.pow 2 64 ∧ p.col < Nat.pow 2 64

/-- Both ends of the range are of 64 bits. -/
def TextRange.Fits (r : TextRange) : Prop :=
  r.start.Fits ∧ r.stop.Fits

/-- All numbers in an assignment are of 64 bits. -/
structure Assign.Fits (a : Assign) : Prop where
  /-- The literals in targets. -/
  lvalues : ∀ v ∈ a.lvalues, v.Fits
  /-- The literals in values. -/
  rvalues : ∀ e ∈ a.rvalues, e.Fits
  /-- The text range. -/
  range : a.range.Fits

mutual

/-- All numbers in a statement are of 64 bits. -/
def Statement.Fits : Statement → Prop
  | .abort r => r.Fits
  | .skip r => r.Fits
  | .assign a => a.Fits
  | .cond guards bodies r => (∀ g ∈ guards, g.Fits) ∧ Statement.FitsBodies bodies ∧ r.Fits
  | .loop guards bodies r => (∀ g ∈ guards, g.Fits) ∧ Statement.FitsBodies bodies ∧ r.Fits

/-- All numbers in a sequence of statements are of 64 bits. -/
def Statement.FitsSeq : List Statement → Prop
  | [] => True
  | a :: ss => a.Fits ∧ Statement.FitsSeq ss

/-- All numbers in the bodies of a guarded command are of 64 bits. -/
def Statement.FitsBodies : List (List Statement) → Prop
  | [] => True
  | b :: bs => Statement.FitsSeq b ∧ Statement.FitsBodies bs

end

/-- All numbers in a program are of 64 bits. -/
def Program.Fits (p : Program) : Prop :=
  Statement.FitsSeq p.statements

/-! ## Nodes and lists -/

namespace Json

/-- Where no field is the tag, all fields are kept. -/
theorem filter_tagField {fields : List (String × Json)} (h : ∀ f ∈ fields, f.1 ≠ tagField) :
    (fields.filter fun given => given.1 = tagField) = [] ∧
      (fields.filter fun given => given.1 ≠ tagField) = fields := by
  constructor
  · rw [List.filter_eq_nil_iff]
    intro f hf
    simpa using h f hf
  · rw [List.filter_eq_self]
    intro f hf
    simpa using h f hf

/-- A node with one of the possible tags is recognised. -/
theorem node?_node {tags : List String} {tag : String} {fields : List (String × Json)}
    (htag : tag ∈ tags) (h : ∀ f ∈ fields, f.1 ≠ tagField) (spelledOut : Bool) :
    (Json.node tag fields).node? spelledOut tags = some (tag, .named fields) := by
  -- the tag is the only field of its name, the others are left
  obtain ⟨hnone, hall⟩ := filter_tagField h
  have htype : tag? spelledOut tags (.str tag) = some tag := by
    rw [tag?, if_pos (List.contains_iff_mem.mpr htag)]
  rw [Json.node, node?, List.filter_cons_of_pos (by simp), hnone]
  show (tag? spelledOut tags (.str tag)).bind _ = _
  rw [htype, Option.bind_some, List.filter_cons_of_neg (by simp), hall]

/-- A node with another tag is not. -/
theorem node?_node_of_notMem {tags : List String} {tag : String} {fields : List (String × Json)}
    (htag : tag ∉ tags) (h : ∀ f ∈ fields, f.1 ≠ tagField) (spelledOut : Bool) :
    (Json.node tag fields).node? spelledOut tags = none := by
  have htype : tag? spelledOut tags (.str tag) = none := by
    rw [tag?, if_neg fun hmem => htag (List.contains_iff_mem.mp hmem)]
  rw [Json.node, node?, List.filter_cons_of_pos (by simp), (filter_tagField h).1]
  show (tag? spelledOut tags (.str tag)).bind _ = _
  rw [htype, Option.bind_none]

/-- A node is written without loss if its fields are. -/
@[simp] theorem isExact_node {tag : String} {fields : List (String × Json)} :
    (Json.node tag fields).IsExact ↔ IsExactFields fields := by
  simp only [Json.node, IsExact, IsExactFields, true_and]

/-- A string is written without loss. -/
@[simp] theorem isExact_str (s : String) : (Json.str s).IsExact := by
  simp only [IsExact]

/-- A bound variable is written without loss. -/
@[simp] theorem isExact_boundVariable (k : String) : (boundVariable k).IsExact := by
  simp [boundVariable, IsExactFields]

/-- Items are written without loss if each of them is. -/
theorem isExactItems_iff {js : List Json} : IsExactItems js ↔ ∀ j ∈ js, j.IsExact := by
  induction js with
  | nil => simp [IsExactItems]
  | cons j js ih => rw [IsExactItems, ih, List.forall_mem_cons]

/-- What a node nests in itself, one level down. -/
theorem exists_of_nesting_node_le {tag : String} {fields : List (String × Json)} {n : Nat}
    (h : (Json.node tag fields).nesting ≤ n) : ∃ m, n = m + 1 ∧ nestingFields fields ≤ m := by
  rw [Json.node, nesting, nestingFields, nesting] at h
  · exact ⟨n - 1, by omega, by omega⟩
  all_goals simp

/-- An item nests no deeper than the items together. -/
theorem nesting_le_of_mem {j : Json} {js : List Json} (h : j ∈ js) :
    j.nesting ≤ nestingItems js := by
  induction js with
  | nil => cases h
  | cons k js ih =>
    rw [nestingItems]
    rcases List.mem_cons.mp h with rfl | h
    · exact Nat.le_max_left _ _
    · exact Nat.le_trans (ih h) (Nat.le_max_right _ _)

/-- Items that are each read as they were written are so together. -/
theorem mapM_map_eq_some {α : Type} {write : α → Json} {read : Json → Option α} {as : List α}
    (h : ∀ a ∈ as, read (write a) = some a) : (as.map write).mapM read = some as := by
  induction as with
  | nil => rfl
  | cons a as ih =>
    rw [List.map_cons, List.mapM_cons, h a List.mem_cons_self,
      ih fun b hb => h b (List.mem_cons_of_mem a hb)]
    rfl

/-- The text of a value of little enough nesting is read as the value is. -/
theorem readText?_compact {α : Type} {decode : Json → Option α} {j : Json} (h : j.IsExact)
    (hnesting : j.nesting ≤ nestingLimit) : readText? id decode j.compact = decode j := by
  have hreadable : j.isReadable = true := by
    rw [isReadable, h.isComplete, decide_eq_true hnesting]
    rfl
  rw [readText?, parse?_compact h]
  show (if j.isReadable = true then decode j else none) = _
  rw [if_pos hreadable]

end Json

/-! ## Formulas -/

mutual

/-- A variable with numbers of 64 bits is written without loss. -/
theorem Variable.isExact_toJson : ∀ v : Variable, v.Fits → v.toJson.IsExact
  | .name x, _ => by simp [Variable.toJson, Json.IsExactFields]
  | .select b i, h => by
    rw [Variable.Fits] at h
    simp [Variable.toJson, Json.IsExactFields, b.isExact_toJson h.1, i.isExact_toJson h.2]
  | .store b i e, h => by
    rw [Variable.Fits] at h
    simp [Variable.toJson, Json.IsExactFields, b.isExact_toJson h.1, i.isExact_toJson h.2.1,
      e.isExact_toJson h.2.2]

/-- An expression with numbers of 64 bits is written without loss. -/
theorem Expr.isExact_toJson : ∀ e : Expr, e.Fits → e.toJson.IsExact
  | .map v, h => by
    rw [Expr.Fits] at h
    rw [Expr.toJson]
    exact v.isExact_toJson h
  | .int e, h => by
    rw [Expr.Fits] at h
    rw [Expr.toJson]
    exact e.isExact_toJson h

/-- An integer expression with numbers of 64 bits is written without loss. -/
theorem IntExpr.isExact_toJson : ∀ e : IntExpr, e.Fits → e.toJson.IsExact
  | .const c, h => by
    rw [IntExpr.Fits] at h
    -- literals are signed, numbers in a text need not be
    have hpow : (Nat.pow 2 63 : Int) ≤ Nat.pow 2 64 := by decide
    simp only [IntExpr.toJson, Json.isExact_node, Json.IsExactFields, Json.ofInt, Json.IsExact]
    exact ⟨⟨h.1, Int.lt_of_lt_of_le h.2 hpow⟩, trivial⟩
  | .var v, h => by
    rw [IntExpr.Fits] at h
    simp [IntExpr.toJson, Json.IsExactFields, v.isExact_toJson h]
  | .negate e, h => by
    rw [IntExpr.Fits] at h
    simp [IntExpr.toJson, Json.IsExactFields, e.isExact_toJson h]
  | .binary op l r, h => by
    rw [IntExpr.Fits] at h
    simp [IntExpr.toJson, Json.IsExactFields, l.isExact_toJson h.1, r.isExact_toJson h.2]
  | .call f args, h => by
    rw [IntExpr.Fits] at h
    simp [IntExpr.toJson, Json.IsExactFields, Json.IsExact, Expr.isExactItems_toJsonAll args h]
  | .fold op k c e, h => by
    rw [IntExpr.Fits] at h
    simp [IntExpr.toJson, Json.IsExactFields, c.isExact_toJson h.1, e.isExact_toJson h.2]
  | .count k c p, h => by
    rw [IntExpr.Fits] at h
    simp [IntExpr.toJson, Json.IsExactFields, c.isExact_toJson h.1, p.isExact_toJson h.2]

/-- A predicate with numbers of 64 bits is written without loss. -/
theorem Predicate.isExact_toJson : ∀ p : Predicate, p.Fits → p.toJson.IsExact
  | .const b, _ => by simp [Predicate.toJson, Json.IsExactFields, Json.IsExact]
  | .not p, h => by
    rw [Predicate.Fits] at h
    simp [Predicate.toJson, Json.IsExactFields, p.isExact_toJson h]
  | .binary op l r, h => by
    rw [Predicate.Fits] at h
    simp [Predicate.toJson, Json.IsExactFields, l.isExact_toJson h.1, r.isExact_toJson h.2]
  | .comp op l r, h => by
    rw [Predicate.Fits] at h
    simp [Predicate.toJson, Json.IsExactFields, l.isExact_toJson h.1, r.isExact_toJson h.2]
  | .call f args, h => by
    rw [Predicate.Fits] at h
    simp [Predicate.toJson, Json.IsExactFields, Json.IsExact, Expr.isExactItems_toJsonAll args h]
  | .perm a b n, h => by
    rw [Predicate.Fits] at h
    simp [Predicate.toJson, Json.IsExactFields, a.isExact_toJson h.1, b.isExact_toJson h.2.1,
      n.isExact_toJson h.2.2]
  | .quant q k c p, h => by
    rw [Predicate.Fits] at h
    simp [Predicate.toJson, Json.IsExactFields, c.isExact_toJson h.1, p.isExact_toJson h.2]

/-- Arguments with numbers of 64 bits are written without loss. -/
theorem Expr.isExactItems_toJsonAll :
    ∀ es : List Expr, Expr.FitsAll es → Json.IsExactItems (Expr.toJsonAll es)
  | [], _ => by simp [Expr.toJsonAll, Json.IsExactItems]
  | e :: es, h => by
    rw [Expr.FitsAll] at h
    rw [Expr.toJsonAll, Json.IsExactItems]
    exact ⟨e.isExact_toJson h.1, Expr.isExactItems_toJsonAll es h.2⟩

end

/-- The words for the nodes of integer expressions are not those of variables. -/
theorem IntExpr.tag_notMem_tags (e : IntExpr) : e.tag ∉ Variable.tags := by
  cases e with
  | binary op l r => cases op <;> simp [IntExpr.tag, Variable.tags]
  | fold op k c e => cases op <;> simp [IntExpr.tag, Variable.tags]
  | _ => simp [IntExpr.tag, Variable.tags]

/-- An integer expression is not read as a variable. -/
theorem Variable.decode_toJson_intExpr (e : IntExpr) (n : Nat) (spelledOut : Bool) :
    Variable.decode n spelledOut e.toJson = none := by
  cases n with
  | zero => rw [Variable.decode]
  | succ n =>
    have htag := e.tag_notMem_tags
    have hnode : e.toJson.node? spelledOut Variable.tags = none := by
      cases e <;> exact Json.node?_node_of_notMem htag (by simp [Json.tagField]) _
    rw [Variable.decode, hnode]
    rfl

mutual

/-- A variable is read as it was written. -/
theorem Variable.decode_toJson :
    ∀ (v : Variable), v.Fits → ∀ {n : Nat}, v.toJson.nesting ≤ n → ∀ spelledOut : Bool,
      Variable.decode n spelledOut v.toJson = some v
  -- by recursion on the trees: every node uses up one level of nesting
  | .name x, _, n, hn, spelledOut => by
    rw [Variable.toJson] at hn ⊢
    obtain ⟨n, rfl, -⟩ := Json.exists_of_nesting_node_le hn
    rw [Variable.decode, Json.node?_node (by decide) (by simp [Json.tagField])]
    rfl
  | .select b i, h, n, hn, spelledOut => by
    rw [Variable.Fits] at h
    rw [Variable.toJson] at hn ⊢
    obtain ⟨n, rfl, hfields⟩ := Json.exists_of_nesting_node_le hn
    simp only [Json.nestingFields] at hfields
    have hb := b.decode_toJson h.1 (n := n) (by omega) false
    have hi := i.decode_toJson h.2 (n := n) (by omega) false
    rw [Variable.decode, Json.node?_node (by decide) (by simp [Json.tagField])]
    show ((Variable.decode n false b.toJson).bind fun b =>
      (IntExpr.decode n false i.toJson).bind fun i => some (Variable.select b i)) = _
    rw [hb, hi]
    rfl
  | .store b i e, h, n, hn, spelledOut => by
    rw [Variable.Fits] at h
    rw [Variable.toJson] at hn ⊢
    obtain ⟨n, rfl, hfields⟩ := Json.exists_of_nesting_node_le hn
    simp only [Json.nestingFields] at hfields
    have hb := b.decode_toJson h.1 (n := n) (by omega) false
    have hi := i.decode_toJson h.2.1 (n := n) (by omega) false
    have he := e.decode_toJson h.2.2 (n := n) (by omega)
    rw [Variable.decode, Json.node?_node (by decide) (by simp [Json.tagField])]
    show ((Variable.decode n false b.toJson).bind fun b =>
      (IntExpr.decode n false i.toJson).bind fun i =>
        (Expr.decode n e.toJson).bind fun e => some (Variable.store b i e)) = _
    rw [hb, hi, he]
    rfl

/-- An expression is read as it was written, as a variable or as an integer. -/
theorem Expr.decode_toJson :
    ∀ (e : Expr), e.Fits → ∀ {n : Nat}, e.toJson.nesting ≤ n → Expr.decode n e.toJson = some e
  | .map v, h, n, hn => by
    rw [Expr.Fits] at h
    rw [Expr.toJson] at hn ⊢
    rw [Expr.decode, v.decode_toJson h hn]
    rfl
  | .int e, h, n, hn => by
    rw [Expr.Fits] at h
    rw [Expr.toJson] at hn ⊢
    -- an expression is tried as a variable first
    rw [Expr.decode, Variable.decode_toJson_intExpr, e.decode_toJson h hn]
    rfl

/-- An integer expression is read as it was written. -/
theorem IntExpr.decode_toJson :
    ∀ (e : IntExpr), e.Fits → ∀ {n : Nat}, e.toJson.nesting ≤ n → ∀ spelledOut : Bool,
      IntExpr.decode n spelledOut e.toJson = some e
  | .const c, h, n, hn, spelledOut => by
    rw [IntExpr.Fits] at h
    rw [IntExpr.toJson] at hn ⊢
    obtain ⟨n, rfl, -⟩ := Json.exists_of_nesting_node_le hn
    have hc : (Json.ofInt c).int? = some c := by
      rw [Json.ofInt, Json.int?, if_pos h]
    rw [IntExpr.decode, Json.node?_node (by decide) (by simp [Json.tagField])]
    show (Json.ofInt c).int?.map IntExpr.const = _
    rw [hc]
    rfl
  | .var v, h, n, hn, spelledOut => by
    rw [IntExpr.Fits] at h
    rw [IntExpr.toJson] at hn ⊢
    obtain ⟨n, rfl, hfields⟩ := Json.exists_of_nesting_node_le hn
    simp only [Json.nestingFields] at hfields
    have hv := v.decode_toJson h (n := n) (by omega) false
    rw [IntExpr.decode, Json.node?_node (by decide) (by simp [Json.tagField])]
    show (Variable.decode n false v.toJson).map IntExpr.var = _
    rw [hv]
    rfl
  | .negate e, h, n, hn, spelledOut => by
    rw [IntExpr.Fits] at h
    rw [IntExpr.toJson] at hn ⊢
    obtain ⟨n, rfl, hfields⟩ := Json.exists_of_nesting_node_le hn
    simp only [Json.nestingFields] at hfields
    have he := e.decode_toJson h (n := n) (by omega) false
    rw [IntExpr.decode, Json.node?_node (by decide) (by simp [Json.tagField])]
    show (IntExpr.decode n false e.toJson).map IntExpr.negate = _
    rw [he]
    rfl
  | .binary op l r, h, n, hn, spelledOut => by
    rw [IntExpr.Fits] at h
    rw [IntExpr.toJson] at hn ⊢
    obtain ⟨n, rfl, hfields⟩ := Json.exists_of_nesting_node_le hn
    simp only [Json.nestingFields] at hfields
    have hl := l.decode_toJson h.1 (n := n) (by omega) false
    have hr := r.decode_toJson h.2 (n := n) (by omega) false
    have htag : (IntExpr.binary op l r).tag ∈ IntExpr.tags := by
      cases op <;> simp [IntExpr.tag, IntExpr.tags]
    rw [IntExpr.decode, Json.node?_node htag (by simp [Json.tagField])]
    have hread : ∀ op', ((IntExpr.decode n false l.toJson).bind fun l =>
        (IntExpr.decode n false r.toJson).bind fun r => some (IntExpr.binary op' l r)) =
          some (.binary op' l r) := by
      intro op'
      rw [hl, hr]
      rfl
    -- every operator has a tag of its own
    cases op
    · exact hread .plus
    · exact hread .minus
    · exact hread .mult
  | .call f args, h, n, hn, spelledOut => by
    rw [IntExpr.Fits] at h
    rw [IntExpr.toJson] at hn ⊢
    obtain ⟨n, rfl, hfields⟩ := Json.exists_of_nesting_node_le hn
    simp only [Json.nestingFields, Json.nesting] at hfields
    have hargs := Expr.mapM_decode_toJsonAll args h (n := n) (by omega)
    rw [IntExpr.decode, Json.node?_node (by decide) (by simp [Json.tagField])]
    show (((Expr.toJsonAll args).mapM (Expr.decode n)).bind fun args => some (f, args)).bind
      (fun call => some (IntExpr.call call.1 call.2)) = _
    rw [hargs]
    rfl
  | .fold op k c e, h, n, hn, spelledOut => by
    rw [IntExpr.Fits] at h
    rw [IntExpr.toJson] at hn ⊢
    obtain ⟨n, rfl, hfields⟩ := Json.exists_of_nesting_node_le hn
    simp only [Json.nestingFields] at hfields
    have hc := c.decode_toJson h.1 (n := n) (by omega) false
    have he := e.decode_toJson h.2 (n := n) (by omega) false
    have htag : (IntExpr.fold op k c e).tag ∈ IntExpr.tags := by
      cases op <;> simp [IntExpr.tag, IntExpr.tags]
    rw [IntExpr.decode, Json.node?_node htag (by simp [Json.tagField])]
    have hread : ∀ op', ((Predicate.decode n false c.toJson).bind fun c =>
        (IntExpr.decode n false e.toJson).bind fun e => some (IntExpr.fold op' k c e)) =
          some (.fold op' k c e) := by
      intro op'
      rw [hc, he]
      rfl
    cases op
    · exact hread .sum
    · exact hread .prod
  | .count k c p, h, n, hn, spelledOut => by
    rw [IntExpr.Fits] at h
    rw [IntExpr.toJson] at hn ⊢
    obtain ⟨n, rfl, hfields⟩ := Json.exists_of_nesting_node_le hn
    simp only [Json.nestingFields] at hfields
    have hc := c.decode_toJson h.1 (n := n) (by omega) false
    have hp := p.decode_toJson h.2 (n := n) (by omega) false
    rw [IntExpr.decode, Json.node?_node (by decide) (by simp [Json.tagField])]
    show ((Predicate.decode n false c.toJson).bind fun c =>
      (Predicate.decode n false p.toJson).bind fun p => some (IntExpr.count k c p)) = _
    rw [hc, hp]
    rfl

/-- A predicate is read as it was written. -/
theorem Predicate.decode_toJson :
    ∀ (p : Predicate), p.Fits → ∀ {n : Nat}, p.toJson.nesting ≤ n → ∀ spelledOut : Bool,
      Predicate.decode n spelledOut p.toJson = some p
  | .const b, _, n, hn, spelledOut => by
    rw [Predicate.toJson] at hn ⊢
    obtain ⟨n, rfl, -⟩ := Json.exists_of_nesting_node_le hn
    rw [Predicate.decode, Json.node?_node (by decide) (by simp [Json.tagField])]
    rfl
  | .not p, h, n, hn, spelledOut => by
    rw [Predicate.Fits] at h
    rw [Predicate.toJson] at hn ⊢
    obtain ⟨n, rfl, hfields⟩ := Json.exists_of_nesting_node_le hn
    simp only [Json.nestingFields] at hfields
    have hp := p.decode_toJson h (n := n) (by omega) false
    rw [Predicate.decode, Json.node?_node (by decide) (by simp [Json.tagField])]
    show (Predicate.decode n false p.toJson).map Predicate.not = _
    rw [hp]
    rfl
  | .binary op l r, h, n, hn, spelledOut => by
    rw [Predicate.Fits] at h
    rw [Predicate.toJson] at hn ⊢
    obtain ⟨n, rfl, hfields⟩ := Json.exists_of_nesting_node_le hn
    simp only [Json.nestingFields] at hfields
    have hl := l.decode_toJson h.1 (n := n) (by omega) false
    have hr := r.decode_toJson h.2 (n := n) (by omega) false
    have htag : (Predicate.binary op l r).tag ∈ Predicate.tags := by
      cases op <;> simp [Predicate.tag, Predicate.tags]
    rw [Predicate.decode, Json.node?_node htag (by simp [Json.tagField])]
    have hread : ∀ op', ((Predicate.decode n false l.toJson).bind fun l =>
        (Predicate.decode n false r.toJson).bind fun r => some (Predicate.binary op' l r)) =
          some (.binary op' l r) := by
      intro op'
      rw [hl, hr]
      rfl
    cases op
    · exact hread .and
    · exact hread .or
    · exact hread .implies
    · exact hread .iff
  | .comp op l r, h, n, hn, spelledOut => by
    rw [Predicate.Fits] at h
    rw [Predicate.toJson] at hn ⊢
    obtain ⟨n, rfl, hfields⟩ := Json.exists_of_nesting_node_le hn
    simp only [Json.nestingFields] at hfields
    have hop : CompOp.ofJson? (.str op.symbol) = some op := by cases op <;> rfl
    have hl := l.decode_toJson h.1 (n := n) (by omega) false
    have hr := r.decode_toJson h.2 (n := n) (by omega) false
    rw [Predicate.decode, Json.node?_node (by decide) (by simp [Json.tagField])]
    show ((CompOp.ofJson? (.str op.symbol)).bind fun op =>
      (IntExpr.decode n false l.toJson).bind fun l =>
        (IntExpr.decode n false r.toJson).bind fun r => some (Predicate.comp op l r)) = _
    rw [hop, hl, hr]
    rfl
  | .call f args, h, n, hn, spelledOut => by
    rw [Predicate.Fits] at h
    rw [Predicate.toJson] at hn ⊢
    obtain ⟨n, rfl, hfields⟩ := Json.exists_of_nesting_node_le hn
    simp only [Json.nestingFields, Json.nesting] at hfields
    have hargs := Expr.mapM_decode_toJsonAll args h (n := n) (by omega)
    rw [Predicate.decode, Json.node?_node (by decide) (by simp [Json.tagField])]
    show (((Expr.toJsonAll args).mapM (Expr.decode n)).bind fun args => some (f, args)).bind
      (fun call => some (Predicate.call call.1 call.2)) = _
    rw [hargs]
    rfl
  | .perm a b m, h, n, hn, spelledOut => by
    rw [Predicate.Fits] at h
    rw [Predicate.toJson] at hn ⊢
    obtain ⟨n, rfl, hfields⟩ := Json.exists_of_nesting_node_le hn
    simp only [Json.nestingFields] at hfields
    have ha := a.decode_toJson h.1 (n := n) (by omega) false
    have hb := b.decode_toJson h.2.1 (n := n) (by omega) false
    have hm := m.decode_toJson h.2.2 (n := n) (by omega) false
    rw [Predicate.decode, Json.node?_node (by decide) (by simp [Json.tagField])]
    show ((Variable.decode n false a.toJson).bind fun a =>
      (Variable.decode n false b.toJson).bind fun b =>
        (IntExpr.decode n false m.toJson).bind fun m => some (Predicate.perm a b m)) = _
    rw [ha, hb, hm]
    rfl
  | .quant q k c p, h, n, hn, spelledOut => by
    rw [Predicate.Fits] at h
    rw [Predicate.toJson] at hn ⊢
    obtain ⟨n, rfl, hfields⟩ := Json.exists_of_nesting_node_le hn
    simp only [Json.nestingFields] at hfields
    have hc := c.decode_toJson h.1 (n := n) (by omega) false
    have hp := p.decode_toJson h.2 (n := n) (by omega) false
    have htag : (Predicate.quant q k c p).tag ∈ Predicate.tags := by
      cases q <;> simp [Predicate.tag, Predicate.tags]
    rw [Predicate.decode, Json.node?_node htag (by simp [Json.tagField])]
    have hread : ∀ q', ((Predicate.decode n false c.toJson).bind fun c =>
        (Predicate.decode n false p.toJson).bind fun p => some (Predicate.quant q' k c p)) =
          some (.quant q' k c p) := by
      intro q'
      rw [hc, hp]
      rfl
    -- both quantifiers are read alike
    cases q
    · exact hread .all
    · exact hread .some

/-- Arguments are read as they were written. -/
theorem Expr.mapM_decode_toJsonAll :
    ∀ (es : List Expr), Expr.FitsAll es → ∀ {n : Nat},
      Json.nestingItems (Expr.toJsonAll es) ≤ n →
        (Expr.toJsonAll es).mapM (Expr.decode n) = some es
  | [], _, n, _ => by
    rw [Expr.toJsonAll]
    rfl
  | e :: es, h, n, hn => by
    rw [Expr.FitsAll] at h
    rw [Expr.toJsonAll, Json.nestingItems] at hn
    have he := e.decode_toJson h.1 (n := n) (by omega)
    have hes := Expr.mapM_decode_toJsonAll es h.2 (n := n) (by omega)
    rw [Expr.toJsonAll, List.mapM_cons, he, hes]
    rfl

end

/-! ## Statements -/

/-- A natural number of 64 bits is written without loss. -/
theorem Json.isExact_ofNat {n : Nat} (h : n < Nat.pow 2 64) : (Json.ofNat n).IsExact := by
  rw [Json.ofNat, Json.IsExact]
  exact ⟨Int.le_trans (by decide) (Int.natCast_nonneg n), Int.ofNat_lt.mpr h⟩

/-- A natural number of 64 bits is read back. -/
theorem Json.nat?_ofNat {n : Nat} (h : n < Nat.pow 2 64) : (Json.ofNat n).nat? = some n := by
  rw [Json.ofNat, Json.nat?, if_pos ⟨Int.natCast_nonneg n, Int.ofNat_lt.mpr h⟩, Int.toNat_natCast]

/-- A position of 64 bits is written without loss. -/
theorem Position.isExact_toJson {p : Position} (h : p.Fits) : p.toJson.IsExact := by
  simp [Position.toJson, Json.IsExact, Json.IsExactFields, Json.isExact_ofNat h.1,
    Json.isExact_ofNat h.2]

/-- A position is read from its row and its column. -/
theorem Position.ofJson?_obj {j k : Json} {row col : Nat} (hrow : j.nat? = some row)
    (hcol : k.nat? = some col) :
    Position.ofJson? (.obj [("row", j), ("col", k)]) = some ⟨row, col⟩ := by
  show (j.nat?.bind fun row => k.nat?.bind fun col => some (Position.mk row col)) = _
  rw [hrow, hcol]
  rfl

/-- A position is read as it was written. -/
theorem Position.ofJson?_toJson {p : Position} (h : p.Fits) :
    Position.ofJson? p.toJson = some p :=
  Position.ofJson?_obj (Json.nat?_ofNat h.1) (Json.nat?_ofNat h.2)

/-- A range of 64 bits is written without loss. -/
theorem TextRange.isExact_toJson {r : TextRange} (h : r.Fits) : r.toJson.IsExact := by
  simp [TextRange.toJson, Json.IsExact, Json.IsExactFields, Position.isExact_toJson h.1,
    Position.isExact_toJson h.2]

/-- A range is read from its start and its end. -/
theorem TextRange.ofJson?_obj {j k : Json} {start stop : Position}
    (hstart : Position.ofJson? j = some start) (hstop : Position.ofJson? k = some stop) :
    TextRange.ofJson? (.obj [("start", j), ("end", k)]) = some ⟨start, stop⟩ := by
  show ((Position.ofJson? j).bind fun start =>
    (Position.ofJson? k).bind fun stop => some (TextRange.mk start stop)) = _
  rw [hstart, hstop]
  rfl

/-- A text range is read as it was written. -/
theorem TextRange.ofJson?_toJson {r : TextRange} (h : r.Fits) :
    TextRange.ofJson? r.toJson = some r :=
  TextRange.ofJson?_obj (Position.ofJson?_toJson h.1) (Position.ofJson?_toJson h.2)

/-- Predicates with numbers of 64 bits are written without loss. -/
theorem Predicate.isExactItems_map_toJson {ps : List Predicate} (h : ∀ p ∈ ps, p.Fits) :
    Json.IsExactItems (ps.map Predicate.toJson) := by
  rw [Json.isExactItems_iff, List.forall_mem_map]
  exact fun p hp => p.isExact_toJson (h p hp)

/-- Predicates are read back one by one. -/
theorem Predicate.mapM_decode_map_toJson {ps : List Predicate} (h : ∀ p ∈ ps, p.Fits) {n : Nat}
    (hn : Json.nestingItems (ps.map Predicate.toJson) ≤ n) :
    (ps.map Predicate.toJson).mapM (Predicate.decode n false) = some ps := by
  refine Json.mapM_map_eq_some fun p hp => p.decode_toJson (h p hp) ?_ false
  exact Nat.le_trans (Json.nesting_le_of_mem (List.mem_map_of_mem hp)) hn

/-- The fields of an assignment with numbers of 64 bits are written without loss. -/
theorem Assign.isExactFields_toFields {a : Assign} (h : a.Fits) :
    Json.IsExactFields a.toFields := by
  have hlvalues : Json.IsExactItems (a.lvalues.map Variable.toJson) := by
    rw [Json.isExactItems_iff, List.forall_mem_map]
    exact fun v hv => v.isExact_toJson (h.lvalues v hv)
  have hrvalues : Json.IsExactItems (a.rvalues.map Expr.toJson) := by
    rw [Json.isExactItems_iff, List.forall_mem_map]
    exact fun e he => e.isExact_toJson (h.rvalues e he)
  simp [Assign.toFields, Json.IsExactFields, Json.IsExact, hlvalues, hrvalues,
    TextRange.isExact_toJson h.range]

/-- An assignment is read as it was written. -/
theorem Assign.ofFields?_toFields {a : Assign} (h : a.Fits) {n : Nat}
    (hn : Json.nestingFields a.toFields ≤ n) :
    Assign.ofFields? (Variable.decode n false) (Expr.decode n) (.named a.toFields) = some a := by
  simp only [Assign.toFields, Json.nestingFields, Json.nesting] at hn
  have hlvalues : (a.lvalues.map Variable.toJson).mapM (Variable.decode n false) =
      some a.lvalues := by
    refine Json.mapM_map_eq_some fun v hv => v.decode_toJson (h.lvalues v hv) ?_ false
    have := Json.nesting_le_of_mem (List.mem_map_of_mem (f := Variable.toJson) hv)
    omega
  have hrvalues : (a.rvalues.map Expr.toJson).mapM (Expr.decode n) = some a.rvalues := by
    refine Json.mapM_map_eq_some fun e he => e.decode_toJson (h.rvalues e he) ?_
    have := Json.nesting_le_of_mem (List.mem_map_of_mem (f := Expr.toJson) he)
    omega
  show (((a.lvalues.map Variable.toJson).mapM (Variable.decode n false)).bind fun lvalues =>
    ((a.rvalues.map Expr.toJson).mapM (Expr.decode n)).bind fun rvalues =>
      (textRange? (some a.range.toJson)).bind fun range =>
        some (Assign.mk lvalues rvalues range)) = _
  rw [hlvalues, hrvalues, textRange?, TextRange.ofJson?_toJson h.range]
  rfl

namespace Statement

mutual

/-- A statement with numbers of 64 bits is written without loss. -/
theorem isExact_toJson : ∀ a : Statement, a.Fits → a.toJson.IsExact
  | .abort r, h => by
    rw [Fits] at h
    simp [toJson, Json.IsExactFields, TextRange.isExact_toJson h]
  | .skip r, h => by
    rw [Fits] at h
    simp [toJson, Json.IsExactFields, TextRange.isExact_toJson h]
  | .assign a, h => by
    rw [Fits] at h
    rw [toJson, Json.isExact_node]
    exact Assign.isExactFields_toFields h
  | .cond guards bodies r, h => by
    rw [Fits] at h
    simp [toJson, Json.IsExactFields, Json.IsExact, Predicate.isExactItems_map_toJson h.1,
      isExactItems_toJsonBodies bodies h.2.1, TextRange.isExact_toJson h.2.2]
  | .loop guards bodies r, h => by
    rw [Fits] at h
    simp [toJson, Json.IsExactFields, Json.IsExact, Predicate.isExactItems_map_toJson h.1,
      isExactItems_toJsonBodies bodies h.2.1, TextRange.isExact_toJson h.2.2]

/-- A sequence with numbers of 64 bits is written without loss. -/
theorem isExactItems_toJsonSeq :
    ∀ ss : List Statement, FitsSeq ss → Json.IsExactItems (toJsonSeq ss)
  | [], _ => by simp [toJsonSeq, Json.IsExactItems]
  | a :: ss, h => by
    rw [FitsSeq] at h
    rw [toJsonSeq, Json.IsExactItems]
    exact ⟨a.isExact_toJson h.1, isExactItems_toJsonSeq ss h.2⟩

/-- Bodies with numbers of 64 bits are written without loss. -/
theorem isExactItems_toJsonBodies :
    ∀ bs : List (List Statement), FitsBodies bs → Json.IsExactItems (toJsonBodies bs)
  | [], _ => by simp [toJsonBodies, Json.IsExactItems]
  | b :: bs, h => by
    rw [FitsBodies] at h
    rw [toJsonBodies, Json.IsExactItems, Json.IsExact]
    exact ⟨isExactItems_toJsonSeq b h.1, isExactItems_toJsonBodies bs h.2⟩

end

/-- An `abort` is read from its node. -/
theorem decode_abort {range : Json} {r : TextRange} (n : Nat) (spelledOut : Bool)
    (hr : TextRange.ofJson? range = some r) :
    decode (n + 1) spelledOut (.node "abort" [("textRange", range)]) = some (.abort r) := by
  rw [decode, Json.node?_node (by decide) (by simp [Json.tagField])]
  show (TextRange.ofJson? range).map Statement.abort = _
  rw [hr]
  rfl

/-- A `skip` is read from its node. -/
theorem decode_skip {range : Json} {r : TextRange} (n : Nat) (spelledOut : Bool)
    (hr : TextRange.ofJson? range = some r) :
    decode (n + 1) spelledOut (.node "skip" [("textRange", range)]) = some (.skip r) := by
  rw [decode, Json.node?_node (by decide) (by simp [Json.tagField])]
  show (TextRange.ofJson? range).map Statement.skip = _
  rw [hr]
  rfl

/-- A choice is read from its node, if its guards and bodies are. -/
theorem decode_cond {gs bs : List Json} {range : Json} {guards : List Predicate}
    {bodies : List (List Statement)} {r : TextRange} {n : Nat} (spelledOut : Bool)
    (hguards : gs.mapM (Predicate.decode n false) = some guards)
    (hbodies : bs.mapM (Json.list? (decode n false)) = some bodies)
    (hr : TextRange.ofJson? range = some r) :
    decode (n + 1) spelledOut
      (.node "if" [("guards", .arr gs), ("commands", .arr bs), ("textRange", range)]) =
        some (.cond guards bodies r) := by
  rw [decode, Json.node?_node (by decide) (by simp [Json.tagField])]
  show (((gs.mapM (Predicate.decode n false)).bind fun guards =>
    (bs.mapM (Json.list? (decode n false))).bind fun bodies =>
      (TextRange.ofJson? range).bind fun r => some (guards, bodies, r)).bind fun branches =>
        some (Statement.cond branches.1 branches.2.1 branches.2.2)) = _
  rw [hguards, hbodies, hr]
  rfl

/-- A loop is read from its node, if its guards and bodies are. -/
theorem decode_loop {gs bs : List Json} {range : Json} {guards : List Predicate}
    {bodies : List (List Statement)} {r : TextRange} {n : Nat} (spelledOut : Bool)
    (hguards : gs.mapM (Predicate.decode n false) = some guards)
    (hbodies : bs.mapM (Json.list? (decode n false)) = some bodies)
    (hr : TextRange.ofJson? range = some r) :
    decode (n + 1) spelledOut
      (.node "do" [("guards", .arr gs), ("commands", .arr bs), ("textRange", range)]) =
        some (.loop guards bodies r) := by
  rw [decode, Json.node?_node (by decide) (by simp [Json.tagField])]
  show (((gs.mapM (Predicate.decode n false)).bind fun guards =>
    (bs.mapM (Json.list? (decode n false))).bind fun bodies =>
      (TextRange.ofJson? range).bind fun r => some (guards, bodies, r)).bind fun branches =>
        some (Statement.loop branches.1 branches.2.1 branches.2.2)) = _
  rw [hguards, hbodies, hr]
  rfl

mutual

/-- A statement is read as it was written. -/
theorem decode_toJson :
    ∀ (a : Statement), a.Fits → ∀ {n : Nat}, a.toJson.nesting ≤ n → ∀ spelledOut : Bool,
      decode n spelledOut a.toJson = some a
  | .abort r, h, n, hn, spelledOut => by
    rw [Fits] at h
    rw [toJson] at hn ⊢
    obtain ⟨n, rfl, -⟩ := Json.exists_of_nesting_node_le hn
    exact decode_abort n spelledOut (TextRange.ofJson?_toJson h)
  | .skip r, h, n, hn, spelledOut => by
    rw [Fits] at h
    rw [toJson] at hn ⊢
    obtain ⟨n, rfl, -⟩ := Json.exists_of_nesting_node_le hn
    exact decode_skip n spelledOut (TextRange.ofJson?_toJson h)
  | .assign a, h, n, hn, spelledOut => by
    rw [Fits] at h
    rw [toJson] at hn ⊢
    -- The fields of a node nest less deeply than the node, so reading has steps left for them.
    obtain ⟨n, rfl, hfields⟩ := Json.exists_of_nesting_node_le hn
    rw [decode, Json.node?_node (by decide) (by simp [Assign.toFields, Json.tagField])]
    show (Assign.ofFields? (Variable.decode n false) (Expr.decode n) (.named a.toFields)).map
      Statement.assign = _
    rw [Assign.ofFields?_toFields h hfields]
    rfl
  | .cond guards bodies r, h, n, hn, spelledOut => by
    rw [Fits] at h
    rw [toJson] at hn ⊢
    obtain ⟨n, rfl, hfields⟩ := Json.exists_of_nesting_node_le hn
    simp only [Json.nestingFields, Json.nesting] at hfields
    have hguards := Predicate.mapM_decode_map_toJson h.1 (n := n) (by omega)
    have hbodies := mapM_list?_toJsonBodies bodies h.2.1 (n := n) (by omega)
    exact decode_cond spelledOut hguards hbodies (TextRange.ofJson?_toJson h.2.2)
  | .loop guards bodies r, h, n, hn, spelledOut => by
    rw [Fits] at h
    rw [toJson] at hn ⊢
    obtain ⟨n, rfl, hfields⟩ := Json.exists_of_nesting_node_le hn
    simp only [Json.nestingFields, Json.nesting] at hfields
    have hguards := Predicate.mapM_decode_map_toJson h.1 (n := n) (by omega)
    have hbodies := mapM_list?_toJsonBodies bodies h.2.1 (n := n) (by omega)
    exact decode_loop spelledOut hguards hbodies (TextRange.ofJson?_toJson h.2.2)

/-- Statements are read as they were written. -/
theorem mapM_decode_toJsonSeq :
    ∀ (ss : List Statement), FitsSeq ss → ∀ {n : Nat}, Json.nestingItems (toJsonSeq ss) ≤ n →
      (toJsonSeq ss).mapM (decode n false) = some ss
  | [], _, n, _ => by
    rw [toJsonSeq]
    rfl
  | a :: ss, h, n, hn => by
    rw [FitsSeq] at h
    rw [toJsonSeq, Json.nestingItems] at hn
    have ha := a.decode_toJson h.1 (n := n) (by omega) false
    have hss := mapM_decode_toJsonSeq ss h.2 (n := n) (by omega)
    rw [toJsonSeq, List.mapM_cons, ha, hss]
    rfl

/-- Bodies are read as they were written. -/
theorem mapM_list?_toJsonBodies :
    ∀ (bs : List (List Statement)), FitsBodies bs → ∀ {n : Nat},
      Json.nestingItems (toJsonBodies bs) ≤ n →
        (toJsonBodies bs).mapM (Json.list? (decode n false)) = some bs
  | [], _, n, _ => by
    rw [toJsonBodies]
    rfl
  | b :: bs, h, n, hn => by
    rw [FitsBodies] at h
    rw [toJsonBodies, Json.nestingItems, Json.nesting] at hn
    have hb := mapM_decode_toJsonSeq b h.1 (n := n) (by omega)
    have hbs := mapM_list?_toJsonBodies bs h.2 (n := n) (by omega)
    rw [toJsonBodies, List.mapM_cons, Json.list?, hb, hbs]
    rfl

end

end Statement

/-! ## Programs -/

/-- A program with numbers of 64 bits is written without loss. -/
theorem Program.isExact_toJson {p : Program} (h : p.Fits) : p.toJson.IsExact := by
  simp [Program.toJson, Json.IsExact, Json.IsExactFields,
    Statement.isExactItems_toJsonSeq p.statements h]

/-- A program is read as it was written. -/
theorem Program.ofJson?_toJson {p : Program} (h : p.Fits) : Program.ofJson? p.toJson = some p := by
  have hstatements : (Statement.toJsonSeq p.statements).mapM
      (Statement.decode p.toJson.nesting false) = some p.statements := by
    refine Statement.mapM_decode_toJsonSeq p.statements h ?_
    simp only [Program.toJson, Json.nesting, Json.nestingFields]
    omega
  rw [Program.ofJson?]
  -- the depth is that of the whole program; only that it suffices matters
  generalize p.toJson.nesting = n at hstatements ⊢
  show ((((Statement.toJsonSeq p.statements).mapM (Statement.decode n false)).map Program.mk).orElse
    fun _ => _) = _
  rw [hstatements]
  rfl

/-- An array that holds no array is not a record of one list, so it is read as a list of
statements. -/
theorem Program.ofJson?_arr {items : List Json}
    (h : ∀ j ∈ items, ∀ read : Json → Option Statement, j.list? read = none) :
    Program.ofJson? (.arr items) =
      (items.mapM (Statement.decode (Json.arr items).nesting false)).map Program.mk := by
  match items, h with
  | [], _ => rfl
  | [j], h =>
    -- a single item could be the only field of a record, but is not a list
    rw [Program.ofJson?]
    show (((j.list? (Statement.decode (Json.arr [j]).nesting false)).map Program.mk).orElse
      fun _ => ([j].mapM (Statement.decode (Json.arr [j]).nesting false)).map Program.mk) = _
    rw [h j List.mem_cons_self]
    rfl
  | _ :: _ :: _, _ => rfl

/-- A statement is not written as a list, so it is not read as one. -/
theorem Statement.list?_of_mem_toJsonSeq {ss : List Statement} {j : Json}
    (h : j ∈ Statement.toJsonSeq ss) (read : Json → Option Statement) : j.list? read = none := by
  induction ss with
  | nil => cases h
  | cons a ss ih =>
    rw [Statement.toJsonSeq] at h
    rcases List.mem_cons.mp h with rfl | h
    · -- every statement is an object
      cases a <;> rfl
    · exact ih h

/-- A program is read from the list of its statements. -/
theorem Program.ofJson?_toJsonSeq {p : Program} (h : p.Fits) :
    Program.ofJson? (.arr (Statement.toJsonSeq p.statements)) = some p := by
  have hnesting : Json.nestingItems (Statement.toJsonSeq p.statements) ≤
      (Json.arr (Statement.toJsonSeq p.statements)).nesting := by
    rw [Json.nesting]
    exact Nat.le_succ _
  rw [Program.ofJson?_arr fun _ => Statement.list?_of_mem_toJsonSeq,
    Statement.mapM_decode_toJsonSeq p.statements h hnesting]
  rfl

/-! ## Texts -/

/-- A predicate is read from its text. -/
theorem Predicate.ofText?_toJson {p : Predicate} (h : p.Fits)
    (hn : p.toJson.nesting ≤ Json.nestingLimit) :
    Predicate.ofText? p.toJson.compact = some p := by
  rw [Predicate.ofText?, Json.readText?_compact (p.isExact_toJson h) hn]
  exact p.decode_toJson h Nat.le.refl true

/-- An integer expression is read from its text. -/
theorem IntExpr.ofText?_toJson {e : IntExpr} (h : e.Fits)
    (hn : e.toJson.nesting ≤ Json.nestingLimit) :
    IntExpr.ofText? e.toJson.compact = some e := by
  rw [IntExpr.ofText?, Json.readText?_compact (e.isExact_toJson h) hn]
  exact e.decode_toJson h Nat.le.refl true

/-- A variable is read from its text. -/
theorem Variable.ofText?_toJson {v : Variable} (h : v.Fits)
    (hn : v.toJson.nesting ≤ Json.nestingLimit) :
    Variable.ofText? v.toJson.compact = some v := by
  rw [Variable.ofText?, Json.readText?_compact (v.isExact_toJson h) hn]
  exact v.decode_toJson h Nat.le.refl true

/-- An expression is read from its text. -/
theorem Expr.ofText?_toJson {e : Expr} (h : e.Fits)
    (hn : e.toJson.nesting ≤ Json.nestingLimit) :
    Expr.ofText? e.toJson.compact = some e := by
  rw [Expr.ofText?, Json.readText?_compact (e.isExact_toJson h) hn]
  exact e.decode_toJson h Nat.le.refl

/-- A statement is read from its text. -/
theorem Statement.ofText?_toJson {a : Statement} (h : a.Fits)
    (hn : a.toJson.nesting ≤ Json.nestingLimit) :
    Statement.ofText? a.toJson.compact = some a := by
  rw [Statement.ofText?, Json.readText?_compact (a.isExact_toJson h) hn]
  exact a.decode_toJson h Nat.le.refl true

/-- A program is read from its text. -/
theorem Program.ofText?_toJson {p : Program} (h : p.Fits)
    (hn : p.toJson.nesting ≤ Json.nestingLimit) :
    Program.ofText? p.toJson.compact = some p := by
  rw [Program.ofText?, Json.readText?_compact (Program.isExact_toJson h) hn]
  exact Program.ofJson?_toJson h

/-- A program is read from the text of the list of its statements. -/
theorem Program.ofText?_toJsonSeq {p : Program} (h : p.Fits)
    (hn : (Json.arr (Statement.toJsonSeq p.statements)).nesting ≤ Json.nestingLimit) :
    Program.ofText? (Json.arr (Statement.toJsonSeq p.statements)).compact = some p := by
  have hexact : (Json.arr (Statement.toJsonSeq p.statements)).IsExact := by
    rw [Json.IsExact]
    exact Statement.isExactItems_toJsonSeq p.statements h
  rw [Program.ofText?, Json.readText?_compact hexact hn]
  exact Program.ofJson?_toJsonSeq h

/-- The object that holds the statements of a program nests one level more than their list. -/
theorem Program.nesting_toJson (p : Program) :
    p.toJson.nesting = (Json.arr (Statement.toJsonSeq p.statements)).nesting + 1 := by
  simp only [Program.toJson, Json.nesting, Json.nestingFields, Nat.max_zero]

/-- Formulas, statements and programs are read from their text as the trees they were written from,
and programs also from the text of the list of their statements. -/
theorem Program.ofText?_compact :
    (∀ p : Predicate, p.Fits → p.toJson.nesting ≤ Json.nestingLimit →
      Predicate.ofText? p.toJson.compact = some p) ∧
    (∀ e : IntExpr, e.Fits → e.toJson.nesting ≤ Json.nestingLimit →
      IntExpr.ofText? e.toJson.compact = some e) ∧
    (∀ v : Variable, v.Fits → v.toJson.nesting ≤ Json.nestingLimit →
      Variable.ofText? v.toJson.compact = some v) ∧
    (∀ e : Expr, e.Fits → e.toJson.nesting ≤ Json.nestingLimit →
      Expr.ofText? e.toJson.compact = some e) ∧
    (∀ a : Statement, a.Fits → a.toJson.nesting ≤ Json.nestingLimit →
      Statement.ofText? a.toJson.compact = some a) ∧
    (∀ p : Program, p.Fits → p.toJson.nesting ≤ Json.nestingLimit →
      Program.ofText? p.toJson.compact = some p ∧
        Program.ofText? (Json.arr (Statement.toJsonSeq p.statements)).compact = some p) := by
  refine ⟨fun p => Predicate.ofText?_toJson, fun e => IntExpr.ofText?_toJson,
    fun v => Variable.ofText?_toJson, fun e => Expr.ofText?_toJson,
    fun a => Statement.ofText?_toJson, fun p h hn => ⟨Program.ofText?_toJson h hn, ?_⟩⟩
  rw [Program.nesting_toJson] at hn
  exact Program.ofText?_toJsonSeq h (Nat.le_of_succ_le hn)

/-- An assignment of one name, once used as a map and once as an integer. -/
def assignTwice : Assign :=
  ⟨[.name "b", .select (.name "c") (.call "f" [])], [.map (.name "a"), .int (.var (.name "a"))],
    ⟨⟨1, 0⟩, ⟨1, 18446744073709551615⟩⟩⟩

/-- A loop with the extreme literals and positions and with a name that has to be escaped. -/
def extremeProgram : Program :=
  ⟨[.loop [.comp .lt (.var (.select (.name "a\"\n\x01π") (.const (-9223372036854775808))))
      (.const 9223372036854775807)]
    [[.assign assignTwice]] ⟨⟨0, 0⟩, ⟨18446744073709551615, 0⟩⟩]⟩

/-- A program with the extreme numbers is read back, from either text. -/
theorem extremeProgram_ofText? :
    extremeProgram.Fits ∧ extremeProgram.toJson.nesting ≤ Json.nestingLimit ∧
      Program.ofText? extremeProgram.toJson.compact = some extremeProgram ∧
      Program.ofText? (Json.arr (Statement.toJsonSeq extremeProgram.statements)).compact =
        some extremeProgram := by
  have hassign : assignTwice.Fits := by
    constructor <;> simp [assignTwice, Variable.Fits, Expr.Fits, IntExpr.Fits, Expr.FitsAll,
      TextRange.Fits, Position.Fits]
  have hfits : extremeProgram.Fits := by
    simp [extremeProgram, Program.Fits, Statement.FitsSeq, Statement.Fits, Statement.FitsBodies,
      Predicate.Fits, IntExpr.Fits, Variable.Fits, hassign, TextRange.Fits, Position.Fits]
  have hnesting : extremeProgram.toJson.nesting ≤ Json.nestingLimit := by decide
  obtain ⟨-, -, -, -, -, hprogram⟩ := Program.ofText?_compact
  exact ⟨hfits, hnesting, hprogram extremeProgram hfits hnesting⟩

end GuardedCommand
