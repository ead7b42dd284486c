import GuardedCommand.Proofs.Node
import GuardedCommand.Prover.Lowering

/-! # Steps of lowering

Lowering offers a node to the triggers. A node with one claim becomes the term of the claim, a node
without a claim is taken apart, and a node with more than one has no term.

* `Node.lower`, `Trigger.claimOn`: the term of a node and the claims on it, whatever its sort.
* `Claim.lower`: the term of a claim.
* `Predicate.lowerParts` and its companions: the term of a node that is not claimed.
* `Node.lower_eq`, `Node.lower_cases`: one step of lowering.
* `Node.children`, `Node.size`: the immediate parts of a node, and the measure by which lowering
  ends.
-/

namespace GuardedCommand

/-! ## Claims on nodes -/

/-- The claim of a trigger on a node. An expression is claimed as the variable or the integer
expression that it is. -/
def Trigger.claimOn (t : Trigger) : Node → Option Claim
  | .predicate p => t.onPredicate p
  | .int e => t.onInt e
  | .var v => t.onVariable v
  | .expr _ => none

/-- The term of a claim: the function is applied to the terms of the parts. -/
def Claim.lower (ts : List Trigger) : Claim → Except LowerError Term
  | .fixed t => .ok t
  | .apply head parts => (Expr.lowerAll ts parts).map (.apply head)

/-- The term of a node. -/
def Node.lower (ts : List Trigger) : Node → Except LowerError Term
  | .predicate p => p.lower ts
  | .int e => e.lower ts
  | .var v => v.lower ts
  | .expr e => e.lower ts

/-! ## One step -/

/-- The term of a predicate that no trigger claims. -/
def Predicate.lowerParts (ts : List Trigger) : Predicate → Except LowerError Term
  | .const b => .ok (.bool b)
  | .not p => do
    let t ← p.lower ts
    .ok (.apply "NOT" [t])
  | .binary op l r => do
    let l ← l.lower ts
    let r ← r.lower ts
    .ok (.apply op.proverName [l, r])
  | .comp op l r => do
    let l ← l.lower ts
    let r ← r.lower ts
    .ok (.apply op.proverName [l, r])
  | .call f args => do
    let args ← Expr.lowerAll ts args
    .ok (.apply f args)
  | .perm a b n => .error (.noTermForPredicate (.perm a b n))
  | .quant .all k c p => do
    let condition ← c.lower ts
    let inner ← p.lower ts
    match p.hint? k with
    | some v => do
      let hint ← v.lower ts
      .ok (.all k (some hint) condition inner)
    | none => .ok (.all k none condition inner)
  | .quant .some k c p =>
    if p.isMembership k then .error (.noTermForPredicate (.quant .some k c p))
    else do
      let condition ← c.lower ts
      let inner ← p.lower ts
      .ok (.some k condition inner)

/-- The term of an integer expression that no trigger claims. -/
def IntExpr.lowerParts (ts : List Trigger) : IntExpr → Except LowerError Term
  | .const c => .ok (.int c)
  | .var v => v.lower ts
  | .negate e => do
    let t ← e.lower ts
    .ok (.negate t)
  | .binary op l r => do
    let l ← l.lower ts
    let r ← r.lower ts
    .ok (.apply op.proverName [l, r])
  | .call f args => do
    let args ← Expr.lowerAll ts args
    .ok (.apply f args)
  | .fold op k c e => .error (.noTermForInt (.fold op k c e))
  | .count k c p => .error (.noTermForInt (.count k c p))

/-- The term of a variable that no trigger claims. -/
def Variable.lowerParts (ts : List Trigger) : Variable → Except LowerError Term
  | .name x => .ok (.atom x)
  | .select b i => do
    let b ← b.lower ts
    let i ← i.lower ts
    .ok (.apply "select" [b, i])
  | .store b i e => do
    let b ← b.lower ts
    let i ← i.lower ts
    let e ← e.lower ts
    .ok (.apply "store" [b, i, e])

/-- What becomes of a node with the given claims: `own` without any, the term of the only one, and
nothing if there are more. -/
def Claim.settle (ts : List Trigger) (node : NodeKind) (own : Except LowerError Term) :
    List (String × Claim) → Except LowerError Term
  | [] => own
  | [(_, c)] => c.lower ts
  | cs => .error (.ambiguous node (cs.map Prod.fst))

section

variable (ts : List Trigger) {node : NodeKind} {own : Except LowerError Term}
  {claims : List (String × Claim)}

/-- Without a claim a node is taken apart. -/
theorem Claim.settle_of_eq_nil (h : claims = []) : settle ts node own claims = own := by
  rw [h, settle]

/-- With one claim its term is taken. -/
theorem Claim.settle_of_eq_singleton {name : String} {c : Claim} (h : claims = [(name, c)]) :
    settle ts node own claims = c.lower ts := by
  rw [h, settle]

/-- With more claims there is no term. -/
theorem Claim.settle_of_many (hnone : claims = [] → False)
    (hfixed : ∀ name t, claims = [(name, .fixed t)] → False)
    (happly : ∀ name head parts, claims = [(name, .apply head parts)] → False) :
    settle ts node own claims = .error (.ambiguous node (claims.map Prod.fst)) := by
  unfold settle
  split
  · exact absurd rfl hnone
  · next name c =>
    cases c with
    | fixed t => exact absurd rfl (hfixed name t)
    | apply head parts => exact absurd rfl (happly name head parts)
  · rfl

/-- One step of lowering a predicate. -/
theorem Predicate.lower_eq (p : Predicate) : p.lower ts =
    Claim.settle ts .predicate (p.lowerParts ts) (Trigger.claims (·.onPredicate p) ts) := by
  rw [Predicate.lower]
  split
  · next hclaims =>
    rw [Claim.settle_of_eq_nil ts hclaims]
    split <;> try rfl
    -- a universal quantifier, where lowering remembers how the hint was found
    rw [lowerParts]
    congr 1
    funext condition
    congr 1
    funext inner
    split <;> simp_all
  · next hclaims => exact (Claim.settle_of_eq_singleton ts hclaims).symm
  · next hclaims => exact (Claim.settle_of_eq_singleton ts hclaims).symm
  · next hnone hfixed happly => exact (Claim.settle_of_many ts hnone hfixed happly).symm

/-- One step of lowering an integer expression. -/
theorem IntExpr.lower_eq (e : IntExpr) : e.lower ts =
    Claim.settle ts .int (e.lowerParts ts) (Trigger.claims (·.onInt e) ts) := by
  rw [IntExpr.lower]
  split
  · next hclaims =>
    rw [Claim.settle_of_eq_nil ts hclaims]
    split <;> rfl
  · next hclaims => exact (Claim.settle_of_eq_singleton ts hclaims).symm
  · next hclaims => exact (Claim.settle_of_eq_singleton ts hclaims).symm
  · next hnone hfixed happly => exact (Claim.settle_of_many ts hnone hfixed happly).symm

/-- One step of lowering a variable. -/
theorem Variable.lower_eq (v : Variable) : v.lower ts =
    Claim.settle ts .var (v.lowerParts ts) (Trigger.claims (·.onVariable v) ts) := by
  rw [Variable.lower]
  split
  · next hclaims =>
    rw [Claim.settle_of_eq_nil ts hclaims]
    split <;> rfl
  · next hclaims => exact (Claim.settle_of_eq_singleton ts hclaims).symm
  · next hclaims => exact (Claim.settle_of_eq_singleton ts hclaims).symm
  · next hnone hfixed happly => exact (Claim.settle_of_many ts hnone hfixed happly).symm

end

namespace Node

/-- The sort that an error gives for a node. Expressions are never claimed as such. -/
def kind : Node → NodeKind
  | .predicate _ => .predicate
  | .int _ => .int
  | .var _ | .expr _ => .var

/-- The term of a node that no trigger claims. -/
def lowerParts (ts : List Trigger) : Node → Except LowerError Term
  | .predicate p => p.lowerParts ts
  | .int e => e.lowerParts ts
  | .var v => v.lowerParts ts
  | .expr e => e.lower ts

variable {ts : List Trigger} {n : Node}

/-- One step of lowering. -/
theorem lower_eq (ts : List Trigger) (n : Node) : n.lower ts =
    Claim.settle ts n.kind (n.lowerParts ts) (Trigger.claims (·.claimOn n) ts) := by
  cases n with
  | predicate p => exact p.lower_eq ts
  | int e => exact e.lower_eq ts
  | var v => exact v.lower_eq ts
  | expr e =>
    have hnone : Trigger.claims (·.claimOn (.expr e)) ts = [] :=
      List.filterMap_eq_nil_iff.mpr fun _ _ => rfl
    rw [Claim.settle_of_eq_nil ts hnone]
    rfl

/-- A node without a claim is taken apart. -/
theorem lower_of_unclaimed (h : Trigger.claims (·.claimOn n) ts = []) :
    n.lower ts = n.lowerParts ts := by
  rw [lower_eq, Claim.settle_of_eq_nil ts h]

/-- A node with one claim becomes the term of that claim. -/
theorem lower_of_claims {name : String} {c : Claim}
    (h : Trigger.claims (·.claimOn n) ts = [(name, c)]) : n.lower ts = c.lower ts := by
  rw [lower_eq, Claim.settle_of_eq_singleton ts h]

/-- What has a term is not claimed, or its term is that of a claim. -/
theorem lower_cases {t : Term} (h : n.lower ts = .ok t) :
    n.lowerParts ts = .ok t ∨ ∃ u ∈ ts, ∃ c, u.claimOn n = some c ∧ c.lower ts = .ok t := by
  rw [lower_eq] at h
  unfold Claim.settle at h
  split at h
  · exact .inl h
  · next c hclaims =>
    obtain ⟨u, hu, hc⟩ := Trigger.exists_of_mem_claims (hclaims ▸ List.mem_singleton_self _)
    exact .inr ⟨u, hu, c, hc, h⟩
  · cases h

/-! ## Smaller nodes -/

/-- The number of nodes of a formula. -/
def size : Node → Nat
  | .predicate p => p.size
  | .int e => e.size
  | .var v => v.size
  | .expr e => e.size

/-- The immediate parts of a node. -/
def children : Node → List Node
  | .predicate (.const _) | .int (.const _) | .var (.name _) => []
  | .predicate (.not p) => [.predicate p]
  | .predicate (.binary _ l r) => [.predicate l, .predicate r]
  | .predicate (.comp _ l r) => [.int l, .int r]
  | .predicate (.call _ args) => args.map .expr
  | .predicate (.perm a b n) => [.var a, .var b, .int n]
  | .predicate (.quant _ _ c p) => [.predicate c, .predicate p]
  | .int (.var v) => [.var v]
  | .int (.negate e) => [.int e]
  | .int (.binary _ l r) => [.int l, .int r]
  | .int (.call _ args) => args.map .expr
  | .int (.fold _ _ c e) => [.predicate c, .int e]
  | .int (.count _ c p) => [.predicate c, .predicate p]
  | .var (.select b i) => [.var b, .int i]
  | .var (.store b i e) => [.var b, .int i, .expr e]
  | .expr (.map v) => [.var v]
  | .expr (.int e) => [.int e]

/-- The immediate parts of a node are smaller. -/
theorem size_lt_of_mem_children {m n : Node} (h : m ∈ n.children) : m.size < n.size := by
  cases n with
  | predicate p =>
    cases p with
    | const b => cases h
    | call f args =>
      obtain ⟨e, he, rfl⟩ := List.mem_map.mp h
      -- An argument is a child of its call, although it is one of a list.
      have := Expr.size_le_sizeAll he
      simp only [size, Predicate.size]
      omega
    | _ =>
      simp only [children, List.mem_cons, List.not_mem_nil, or_false] at h
      rcases h with rfl | rfl | rfl <;> simp only [size, Predicate.size] <;> omega
  | int e =>
    cases e with
    | const c => cases h
    | call f args =>
      obtain ⟨e, he, rfl⟩ := List.mem_map.mp h
      have := Expr.size_le_sizeAll he
      simp only [size, IntExpr.size]
      omega
    | _ =>
      simp only [children, List.mem_cons, List.not_mem_nil, or_false] at h
      rcases h with rfl | rfl <;> simp only [size, IntExpr.size] <;> omega
  | var v =>
    cases v with
    | name x => cases h
    | _ =>
      simp only [children, List.mem_cons, List.not_mem_nil, or_false] at h
      rcases h with rfl | rfl | rfl <;> simp only [size, Variable.size] <;> omega
  | expr e =>
    cases e with
    | _ =>
      rw [children, List.mem_singleton] at h
      subst h
      simp only [size, Expr.size]
      omega

end Node

/-- The largest of some expressions is at least as large as each. -/
theorem Expr.size_le_sizeMax {e : Expr} {es : List Expr} (h : e ∈ es) :
    e.size ≤ Expr.sizeMax es := by
  induction es with
  | nil => cases h
  | cons d ds ih =>
    rw [Expr.sizeMax]
    rcases List.mem_cons.mp h with rfl | h
    · omega
    · have := ih h
      omega

/-- The parts of a claim are smaller than the node. -/
theorem Trigger.size_lt_of_claimOn {t : Trigger} {n : Node} {c : Claim} (h : t.claimOn n = some c)
    {e : Expr} (he : e ∈ c.parts) : e.size < n.size := by
  have hpart := Expr.size_le_sizeMax he
  cases n with
  | predicate p => exact Nat.lt_of_le_of_lt hpart (t.onPredicate_size h)
  | int d => exact Nat.lt_of_le_of_lt hpart (t.onInt_size h)
  | var v => exact Nat.lt_of_le_of_lt hpart (t.onVariable_size h)
  | expr d => cases h

end GuardedCommand
