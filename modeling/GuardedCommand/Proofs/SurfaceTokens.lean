import GuardedCommand.Proofs.JsonText
import GuardedCommand.Proofs.Lowering
import GuardedCommand.Surface.Formula

/-! # The tokens of a formula's text

The text of a formula is made of words, numbers, signs and punctuation. Blanks divide them, and so
does punctuation; a minus is a token by itself, so that `--x` has two of them.

* `Surface.Sign`: what stands between two operands, with its symbol and how tightly it binds.
* `Surface.scan`: the tokens of a text.
* `Predicate.Legible` and its companions: the names are identifiers, and `perm` is not called.
* `Predicate.tokens` and its companions: the tokens of a formula at a place of given tightness.
* `Predicate.scan_render`, `IntExpr.scan_render`: the text of a legible formula has these tokens, so
  formulas of one text have the same tokens.
-/

namespace GuardedCommand

namespace Surface

/-! ## Signs -/

/-- What stands between two operands. -/
inductive Sign where
  /-- A connective of predicates. -/
  | bool (op : BoolOp)
  /-- A comparison of integers. -/
  | comp (op : CompOp)
  /-- An operation on integers. -/
  | arith (op : ArithOp)
  deriving DecidableEq

namespace Sign

/-- The symbol of a sign. -/
def symbol : Sign → String
  | .bool op => op.symbol
  | .comp op => op.symbol
  | .arith op => op.symbol

/-- How tightly a sign binds, which is also the tightness required of the left operand. -/
def prec : Sign → Prec
  | .bool op => op.prec
  | .comp _ => .comparison
  | .arith op => op.prec

/-- The tightness required of the right operand. -/
def rightPrec : Sign → Prec
  | .bool op => op.rightPrec
  | .comp _ => .comparison
  | .arith op => op.rightPrec

/-- Whether a sign and its operands are put in parentheses at a place of tightness `parent`. -/
def isBracketed : Sign → Prec → Bool
  | .bool op, parent => op.needsParens parent
  | .comp _, parent => Prec.looser .comparison parent
  | .arith op, parent => op.prec.looser parent

/-- Every sign. -/
def all : List Sign :=
  [.bool .and, .bool .or, .bool .implies, .bool .iff, .comp .lt, .comp .gt, .comp .le, .comp .ge,
    .comp .eq, .comp .ne, .arith .plus, .arith .minus, .arith .mult]

/-- The sign of a symbol. -/
def ofSymbol? (text : String) : Option Sign :=
  all.find? fun op => op.symbol == text

end Sign

/-! ## Cutting a text into tokens -/

/-- What the text of a formula is made of. -/
inductive Token where
  /-- A name, a truth value or the word of a binder. -/
  | word (text : String)
  /-- A number without sign. -/
  | number (n : Nat)
  /-- A sign; a minus may also stand before an operand. -/
  | sign (op : Sign)
  /-- The negation `~`. -/
  | tilde
  /-- The parenthesis `(`. -/
  | opening
  /-- The parenthesis `)`. -/
  | closing
  /-- The bracket `[`. -/
  | leftBracket
  /-- The bracket `]`. -/
  | rightBracket
  /-- The mark between two arguments. -/
  | comma
  /-- The mark after the map of a store. -/
  | semicolon
  /-- The mark between the parts of a binder and before the value of a store. -/
  | colon
  deriving DecidableEq

namespace Token

/-- The token that a character is by itself. -/
def ofChar? : Char → Option Token
  | '~' => some .tilde
  | '(' => some .opening
  | ')' => some .closing
  | '[' => some .leftBracket
  | ']' => some .rightBracket
  | ',' => some .comma
  | ';' => some .semicolon
  | ':' => some .colon
  | '-' => some (.sign (.arith .minus))
  | _ => none

/-- The token of characters that belong together. -/
def ofRun (text : String) : Token :=
  match Prover.numeral? text with
  | some n => .number n
  | none =>
    match Sign.ofSymbol? text with
    | some op => .sign op
    | none => .word text

end Token

/-- Whether a character does not belong to a run. -/
def endsRun (c : Char) : Bool :=
  c == ' ' || (Token.ofChar? c).isSome

/-- The token of the characters `seen`, last one first, if there are any. -/
def runOf (seen : List Char) : List Token :=
  if seen.isEmpty then [] else [.ofRun (String.ofList seen.reverse)]

/-- The tokens of some characters, after those `seen` of the first run, last one first. -/
def scan : List Char → List Char → List Token
  | [], seen => runOf seen
  | c :: cs, seen =>
    if endsRun c then runOf seen ++ (Token.ofChar? c).toList ++ scan cs [] else scan cs (c :: seen)

/-- Characters before which a run ends: none at all, or a first one that does not belong to it. -/
def Stops (rest : List Char) : Prop :=
  ∀ c ∈ rest.head?, endsRun c = true

/-- Some characters are cut into some tokens, whatever follows after the end of a run. -/
def Cuts (cs : List Char) (ts : List Token) : Prop :=
  ∀ rest, Stops rest → scan (cs ++ rest) [] = ts ++ scan rest []

/-- At the end of the text a run of characters ends. -/
theorem stops_nil : Stops [] := by
  simp [Stops]

/-- Before a character that does not continue it, a run of characters ends. -/
theorem stops_cons {c : Char} (h : endsRun c = true) (cs : List Char) : Stops (c :: cs) := by
  simpa [Stops] using h

/-- A run ends where the next character does not belong to it. -/
theorem scan_of_stops {rest : List Char} (h : Stops rest) (seen : List Char) :
    scan rest seen = runOf seen ++ scan rest [] := by
  have hnil : runOf [] = [] := rfl
  cases rest with
  | nil => rw [scan, scan, hnil, List.append_nil]
  | cons c cs =>
    have hc : endsRun c = true := h c rfl
    rw [scan, scan, if_pos hc, if_pos hc, hnil, List.nil_append, List.append_assoc]

/-- The characters of a run are seen one after the other. -/
theorem scan_run {cs : List Char} (h : ∀ c ∈ cs, endsRun c = false) (rest seen : List Char) :
    scan (cs ++ rest) seen = scan rest (cs.reverse ++ seen) := by
  induction cs generalizing seen with
  | nil => rfl
  | cons c cs ih =>
    have hc : ¬ endsRun c = true := by simp [h c List.mem_cons_self]
    have hcs : ∀ d ∈ cs, endsRun d = false := fun d hd => h d (List.mem_cons_of_mem c hd)
    rw [List.cons_append, scan, if_neg hc, ih hcs, List.reverse_cons, List.append_assoc,
      List.singleton_append]

namespace Cuts

variable {cs ds : List Char} {ts us : List Token}

/-- The empty text has no tokens. -/
theorem nil : Cuts [] [] := fun _ _ => rfl

/-- Nothing has to follow. -/
theorem scan_eq (h : Cuts cs ts) : scan cs [] = ts := by
  simpa [scan, runOf] using h [] stops_nil

/-- A run is one token. -/
theorem run {text : String} (hne : text.toList ≠ [])
    (h : ∀ c ∈ text.toList, endsRun c = false) : Cuts text.toList [.ofRun text] := by
  intro rest hrest
  have hempty : text.toList.reverse.isEmpty = false := by
    rw [List.isEmpty_reverse]
    exact List.isEmpty_eq_false_iff.mpr hne
  have hrun : runOf text.toList.reverse = [.ofRun text] := by
    rw [runOf, hempty, List.reverse_reverse, String.ofList_toList]
    rfl
  rw [scan_run h, List.append_nil, scan_of_stops hrest, hrun]

/-- One text after another is cut where the first ends, if a run ends there. -/
theorem append (hcs : Cuts cs ts) (hds : Cuts ds us) (hstops : Stops ds) :
    Cuts (cs ++ ds) (ts ++ us) := by
  intro rest hrest
  have hboth : Stops (ds ++ rest) := by
    cases ds with
    | nil => exact hrest
    | cons d ds => exact stops_cons (hstops d rfl) (ds ++ rest)
  rw [List.append_assoc, hcs _ hboth, hds rest hrest, List.append_assoc]

/-- A character that ends a run is a token by itself, or none. -/
theorem cons {c : Char} (h : endsRun c = true) (hcs : Cuts cs ts) :
    Cuts (c :: cs) ((Token.ofChar? c).toList ++ ts) := by
  intro rest hrest
  have hnil : runOf [] = [] := rfl
  rw [List.cons_append, scan, if_pos h, hnil, List.nil_append, hcs rest hrest, List.append_assoc]

/-- A text and a character that ends a run after it. -/
theorem append_cons {c : Char} (hcs : Cuts cs ts) (h : endsRun c = true) (hds : Cuts ds us) :
    Cuts (cs ++ c :: ds) (ts ++ ((Token.ofChar? c).toList ++ us)) :=
  hcs.append (hds.cons h) (stops_cons h ds)

end Cuts

/-- The symbol of a sign is one token. -/
theorem cuts_symbol (op : Sign) : Cuts op.symbol.toList [.sign op] := by
  have hminus : Cuts "-".toList [.sign (.arith .minus)] := Cuts.nil.cons (c := '-') (by decide)
  have hrun : op = .arith .minus ∨ op.symbol.toList ≠ [] ∧
      op.symbol.toList.all (!endsRun ·) = true ∧ Token.ofRun op.symbol = .sign op := by
    rcases op with op | op | op <;> cases op <;> decide
  rcases hrun with rfl | ⟨hne, hchars, hsign⟩
  · exact hminus
  · rw [← hsign]
    exact Cuts.run hne fun c hc => by simpa using List.all_eq_true.mp hchars c hc

/-! ## Words and numbers -/

/-- A character of an identifier belongs to a run. -/
theorem endsRun_eq_false {c : Char}
    (h : isIdentifierStart c = true ∨ c.isDigit = true) : endsRun c = false := by
  have hblank : c ≠ ' ' := by
    rintro rfl
    revert h
    decide
  have hmark : Token.ofChar? c = none := by
    unfold Token.ofChar?
    split
    case h_10 => rfl
    -- a mark is neither a letter nor a digit
    all_goals
      revert h
      decide
  rw [endsRun, hmark, Option.isSome_none, Bool.or_false]
  exact beq_eq_false_iff_ne.mpr hblank

/-- An identifier is one word. -/
theorem cuts_word {x : String} (h : isIdentifier x = true) : Cuts x.toList [.word x] := by
  obtain ⟨c, cs, hx, hc, hcs⟩ := exists_cons_of_isIdentifier h
  have hdigit : c.isDigit = false := by
    rw [← Bool.not_eq_true, Decimal.isDigit_iff]
    have := toNat_of_isIdentifierStart hc
    omega
  have hsymbol : Sign.ofSymbol? x = none := by
    have hall : ∀ op ∈ Sign.all, isIdentifier op.symbol = false := by decide
    refine List.find?_eq_none.mpr fun op hop heq => ?_
    rw [← beq_iff_eq.mp heq, hall op hop] at h
    cases h
  have hword : Token.ofRun x = .word x := by
    rw [Token.ofRun, Prover.numeral?_eq_none hx hdigit, hsymbol]
  have hne : x.toList ≠ [] := by
    rw [hx]
    exact List.cons_ne_nil c cs
  have hchars : ∀ d ∈ x.toList, endsRun d = false := by
    rw [hx]
    refine List.forall_mem_cons.mpr ⟨endsRun_eq_false (.inl hc), fun d hd => ?_⟩
    exact endsRun_eq_false (hcs d hd)
  rw [← hword]
  exact Cuts.run hne hchars

/-- The digits of a number are one token. -/
theorem cuts_number (n : Nat) : Cuts (Nat.toDigits 10 n) [.number n] := by
  have hlist : (toString n).toList = Nat.toDigits 10 n := by
    rw [Nat.toString_eq_repr, Nat.toList_repr]
  have hnumber : Token.ofRun (toString n) = .number n := by
    rw [Token.ofRun, Prover.numeral?_toString]
  have hchars : ∀ c ∈ (toString n).toList, endsRun c = false := by
    intro c hc
    rw [hlist] at hc
    exact endsRun_eq_false (.inr (Decimal.isDigit_of_mem_toDigits hc))
  have hne : (toString n).toList ≠ [] := by
    rw [hlist]
    exact Nat.toDigits_ne_nil
  rw [← hlist, ← hnumber]
  exact Cuts.run hne hchars

/-- The tokens of an integer. -/
def numeral : Int → List Token
  | .ofNat n => [.number n]
  | .negSucc n => [.sign (.arith .minus), .number (n + 1)]

/-- An integer is cut into its digits, after a minus sign if it is negative. -/
theorem cuts_numeral (c : Int) : Cuts (toString c).toList (numeral c) := by
  cases c with
  | ofNat n =>
    rw [Int.ofNat_eq_natCast, Json.toList_toString_ofNat]
    exact cuts_number n
  | negSucc n =>
    rw [Json.toList_toString_negSucc]
    exact (cuts_number (n + 1)).cons (by decide)

/-! ## Composite texts -/

/-- Tokens in parentheses, if they are needed. -/
def enclosed (needed : Bool) (ts : List Token) : List Token :=
  if needed then .opening :: (ts ++ [.closing]) else ts

/-- The tokens of two operands and the sign between them, at a place of tightness `parent`. -/
def Sign.between (op : Sign) (left right : Prec → List Token) (parent : Prec) : List Token :=
  enclosed (op.isBracketed parent) (left op.prec ++ .sign op :: right op.rightPrec)

/-- The tokens of a binder. -/
def binderTokens (keyword k : String) (condition inner : List Token) : List Token :=
  .opening :: .word keyword :: .word k :: .colon :: (condition ++ .colon :: (inner ++ [.closing]))

/-- The tokens of a call, from those of its arguments. -/
def callTokens (f : String) (args : List Token) : List Token :=
  .word f :: .opening :: (args ++ [.closing])

/-- A text in parentheses, if they are needed, is cut into the tokens in parentheses. -/
theorem Cuts.parens {text : String} {ts : List Token} (h : Cuts text.toList ts) (needed : Bool) :
    Cuts (parens needed text).toList (enclosed needed ts) := by
  cases needed with
  | false => exact h
  | true =>
    have hlist : (GuardedCommand.parens true text).toList = '(' :: (text.toList ++ [')']) := by
      simp [GuardedCommand.parens, String.toList_append]
    rw [hlist]
    exact (h.append_cons (by decide) .nil).cons (by decide)

/-- The text of two operands and a sign has a blank on either side of the sign. -/
theorem Cuts.between {left right : String} {ts us : List Token} (hleft : Cuts left.toList ts)
    (op : Sign) (hright : Cuts right.toList us) :
    Cuts (left ++ " " ++ op.symbol ++ " " ++ right).toList (ts ++ .sign op :: us) := by
  have hlist : (left ++ " " ++ op.symbol ++ " " ++ right).toList =
      left.toList ++ ' ' :: (op.symbol.toList ++ ' ' :: right.toList) := by
    simp [String.toList_append]
  rw [hlist]
  exact hleft.append_cons (by decide) ((cuts_symbol op).append_cons (by decide) hright)

/-- A binder is cut into its keyword, its variable and the tokens of its two parts. -/
theorem Cuts.binder {keyword k condition inner : String} {ts us : List Token}
    (hkeyword : isIdentifier keyword = true) (hk : isIdentifier k = true)
    (hcondition : Cuts condition.toList ts) (hinner : Cuts inner.toList us) :
    Cuts (renderBinder keyword k condition inner).toList (binderTokens keyword k ts us) := by
  have hlist : (renderBinder keyword k condition inner).toList =
      '(' :: (keyword.toList ++ ' ' :: (k.toList ++ ' ' :: ':' :: ' ' :: (condition.toList ++
        ' ' :: ':' :: ' ' :: (inner.toList ++ [')'])))) := by
    simp [renderBinder, String.toList_append]
  rw [hlist]
  -- after a part, a blank ends it; the colon after the blank is a token by itself
  have hlast := (hinner.append_cons (c := ')') (by decide) .nil).cons (c := ' ') (by decide)
  have hparts := hcondition.append_cons (c := ' ') (by decide) (hlast.cons (c := ':') (by decide))
  have htail := (hparts.cons (c := ' ') (by decide)).cons (c := ':') (by decide)
  have hname := (cuts_word hk).append_cons (c := ' ') (by decide) htail
  exact ((cuts_word hkeyword).append_cons (by decide) hname).cons (by decide)

/-- The text of a call. -/
theorem Cuts.call {f args : String} {ts : List Token} (hf : isIdentifier f = true)
    (hargs : Cuts args.toList ts) : Cuts (f ++ "(" ++ args ++ ")").toList (callTokens f ts) := by
  have hlist : (f ++ "(" ++ args ++ ")").toList = f.toList ++ '(' :: (args.toList ++ [')']) := by
    simp [String.toList_append]
  rw [hlist]
  exact (cuts_word hf).append_cons (by decide) (hargs.append_cons (by decide) .nil)

end Surface

/-! ## Formulas -/

mutual

/-- The names in a variable are identifiers, and it calls nothing named `perm`. -/
def Variable.Legible : Variable → Prop
  | .name x => isIdentifier x = true
  | .select b i => b.Legible ∧ i.Legible
  | .store b i e => b.Legible ∧ i.Legible ∧ e.Legible

/-- The names in an expression are identifiers, and it calls nothing named `perm`. -/
def Expr.Legible : Expr → Prop
  | .map v => v.Legible
  | .int e => e.Legible

/-- The names in an integer expression are identifiers, and it calls nothing named `perm`. -/
def IntExpr.Legible : IntExpr → Prop
  | .const _ => True
  | .var v => v.Legible
  | .negate e => e.Legible
  | .binary _ l r => l.Legible ∧ r.Legible
  | .call f args => isIdentifier f = true ∧ f ≠ "perm" ∧ Expr.LegibleAll args
  | .fold _ k c e => isIdentifier k = true ∧ c.Legible ∧ e.Legible
  | .count k c p => isIdentifier k = true ∧ c.Legible ∧ p.Legible

/-- The names in a predicate are identifiers, and it calls nothing named `perm`. -/
def Predicate.Legible : Predicate → Prop
  | .const _ => True
  | .not p => p.Legible
  | .binary _ l r => l.Legible ∧ r.Legible
  | .comp _ l r => l.Legible ∧ r.Legible
  | .call f args => isIdentifier f = true ∧ f ≠ "perm" ∧ Expr.LegibleAll args
  | .perm a b n => a.Legible ∧ b.Legible ∧ n.Legible
  | .quant _ k c p => isIdentifier k = true ∧ c.Legible ∧ p.Legible

/-- The names in arguments are identifiers, and they call nothing named `perm`. -/
def Expr.LegibleAll : List Expr → Prop
  | [] => True
  | e :: es => e.Legible ∧ Expr.LegibleAll es

end

open Surface

mutual

/-- The tokens of a variable. -/
def Variable.tokens : Variable → List Token
  | .name x => [.word x]
  | .select b i => b.tokens ++ .leftBracket :: (i.tokens .lowest ++ [.rightBracket])
  | .store b i e =>
    .opening :: (b.tokens ++ .semicolon :: (i.tokens .primary ++ .colon ::
      (e.tokens .primary ++ [.closing])))

/-- The tokens of an expression at a place of some tightness. -/
def Expr.tokens : Expr → Prec → List Token
  | .map v, _ => v.tokens
  | .int e, parent => e.tokens parent

/-- The tokens of an integer expression at a place of some tightness. -/
def IntExpr.tokens : IntExpr → Prec → List Token
  | .const c, parent => enclosed (c < 0 && Prec.looser .sum parent) (numeral c)
  | .var v, _ => v.tokens
  | .negate e, _ => .sign (.arith .minus) :: e.tokens .unary
  | .binary op l r, parent => (Sign.arith op).between l.tokens r.tokens parent
  | .call f args, _ => callTokens f (Expr.tokensAll args)
  | .fold op k c e, _ => binderTokens op.keyword k (c.tokens .lowest) (e.tokens .lowest)
  | .count k c p, _ => binderTokens countKeyword k (c.tokens .lowest) (p.tokens .lowest)

/-- The tokens of a predicate at a place of some tightness. -/
def Predicate.tokens : Predicate → Prec → List Token
  | .const true, _ => [.word "T"]
  | .const false, _ => [.word "F"]
  | .not p, _ => .tilde :: p.tokens .unary
  | .binary op l r, parent => (Sign.bool op).between l.tokens r.tokens parent
  | .comp op l r, parent => (Sign.comp op).between l.tokens r.tokens parent
  | .call f args, _ => callTokens f (Expr.tokensAll args)
  | .perm a b n, _ =>
    callTokens "perm" (a.tokens ++ .comma :: (b.tokens ++ .comma :: n.tokens .lowest))
  | .quant q k c p, _ => binderTokens q.keyword k (c.tokens .lowest) (p.tokens .lowest)

/-- The tokens of arguments. -/
def Expr.tokensAll : List Expr → List Token
  | [] => []
  | e :: es => e.tokens .lowest ++ Expr.tokensMore es

/-- The tokens of the arguments after the first, each after a comma. -/
def Expr.tokensMore : List Expr → List Token
  | [] => []
  | e :: es => .comma :: (e.tokens .lowest ++ Expr.tokensMore es)

end

mutual

/-- The text of a variable has the tokens of the variable. -/
theorem Variable.cuts_render : ∀ v : Variable, v.Legible → Cuts v.render.toList v.tokens
  | .name x, h => by
    rw [Variable.Legible] at h
    rw [Variable.render, Variable.tokens]
    exact cuts_word h
  | .select b i, h => by
    rw [Variable.Legible] at h
    have hlist : (Variable.select b i).render.toList =
        b.render.toList ++ '[' :: ((i.renderAt .lowest).toList ++ [']']) := by
      simp [Variable.render, String.toList_append]
    have hi := (i.cuts_renderAt h.2 .lowest).append_cons (c := ']') (by decide) .nil
    rw [hlist, Variable.tokens]
    exact (b.cuts_render h.1).append_cons (by decide) hi
  | .store b i e, h => by
    rw [Variable.Legible] at h
    have hlist : (Variable.store b i e).render.toList =
        '(' :: (b.render.toList ++ ';' :: ' ' :: ((i.renderAt .primary).toList ++
          ':' :: ((e.renderAt .primary).toList ++ [')']))) := by
      simp [Variable.render, String.toList_append]
    have he := (e.cuts_renderAt h.2.2 .primary).append_cons (c := ')') (by decide) .nil
    have hi := (i.cuts_renderAt h.2.1 .primary).append_cons (c := ':') (by decide) he
    have hblank := hi.cons (c := ' ') (by decide)
    rw [hlist, Variable.tokens]
    exact ((b.cuts_render h.1).append_cons (by decide) hblank).cons (by decide)

/-- The text of an expression has the tokens of the expression. -/
theorem Expr.cuts_renderAt : ∀ e : Expr, e.Legible → ∀ parent,
    Cuts (e.renderAt parent).toList (e.tokens parent)
  | .map v, h, parent => by
    rw [Expr.Legible] at h
    rw [Expr.renderAt, Expr.tokens]
    exact v.cuts_render h
  | .int e, h, parent => by
    rw [Expr.Legible] at h
    rw [Expr.renderAt, Expr.tokens]
    exact e.cuts_renderAt h parent

/-- The text of an integer expression has the tokens of the expression. -/
theorem IntExpr.cuts_renderAt : ∀ e : IntExpr, e.Legible → ∀ parent,
    Cuts (e.renderAt parent).toList (e.tokens parent)
  | .const c, _, parent => by
    rw [IntExpr.renderAt, IntExpr.tokens]
    -- A negative number is put in parentheses like a sum.
    exact (cuts_numeral c).parens _
  | .var v, h, parent => by
    rw [IntExpr.Legible] at h
    rw [IntExpr.renderAt, IntExpr.tokens]
    exact v.cuts_render h
  | .negate e, h, parent => by
    rw [IntExpr.Legible] at h
    rw [IntExpr.renderAt, IntExpr.tokens, String.toList_append]
    exact (e.cuts_renderAt h .unary).cons (c := '-') (by decide)
  | .binary op l r, h, parent => by
    rw [IntExpr.Legible] at h
    rw [IntExpr.renderAt, IntExpr.tokens]
    exact (Cuts.between (l.cuts_renderAt h.1 _) (.arith op) (r.cuts_renderAt h.2 _)).parens _
  | .call f args, h, parent => by
    rw [IntExpr.Legible] at h
    rw [IntExpr.renderAt, IntExpr.tokens]
    exact Cuts.call h.1 (Expr.cuts_renderArgs args h.2.2)
  | .fold op k c e, h, parent => by
    rw [IntExpr.Legible] at h
    have hkeyword : isIdentifier op.keyword = true := by cases op <;> decide
    rw [IntExpr.renderAt, IntExpr.tokens]
    exact Cuts.binder hkeyword h.1 (c.cuts_renderAt h.2.1 .lowest) (e.cuts_renderAt h.2.2 .lowest)
  | .count k c p, h, parent => by
    rw [IntExpr.Legible] at h
    rw [IntExpr.renderAt, IntExpr.tokens]
    exact Cuts.binder (by decide) h.1 (c.cuts_renderAt h.2.1 .lowest)
      (p.cuts_renderAt h.2.2 .lowest)

/-- The text of a predicate has the tokens of the predicate. -/
theorem Predicate.cuts_renderAt : ∀ p : Predicate, p.Legible → ∀ parent,
    Cuts (p.renderAt parent).toList (p.tokens parent)
  | .const true, _, parent => by
    rw [Predicate.renderAt, Predicate.tokens]
    exact cuts_word (by decide)
  | .const false, _, parent => by
    rw [Predicate.renderAt, Predicate.tokens]
    exact cuts_word (by decide)
  | .not p, h, parent => by
    rw [Predicate.Legible] at h
    rw [Predicate.renderAt, Predicate.tokens, String.toList_append]
    exact (p.cuts_renderAt h .unary).cons (c := '~') (by decide)
  | .binary op l r, h, parent => by
    rw [Predicate.Legible] at h
    rw [Predicate.renderAt, Predicate.tokens]
    exact (Cuts.between (l.cuts_renderAt h.1 _) (.bool op) (r.cuts_renderAt h.2 _)).parens _
  | .comp op l r, h, parent => by
    rw [Predicate.Legible] at h
    rw [Predicate.renderAt, Predicate.tokens]
    exact (Cuts.between (l.cuts_renderAt h.1 _) (.comp op) (r.cuts_renderAt h.2 _)).parens _
  | .call f args, h, parent => by
    rw [Predicate.Legible] at h
    rw [Predicate.renderAt, Predicate.tokens]
    exact Cuts.call h.1 (Expr.cuts_renderArgs args h.2.2)
  | .perm a b n, h, parent => by
    rw [Predicate.Legible] at h
    have hlist : ((Predicate.perm a b n).renderAt parent).toList =
        "perm".toList ++ '(' :: ((a.render.toList ++ ',' :: ' ' :: (b.render.toList ++
          ',' :: ' ' :: (n.renderAt .lowest).toList)) ++ [')']) := by
      simp [Predicate.renderAt, String.toList_append]
    -- From the last argument to the first, since a text is cut whatever follows it.
    have hn := (n.cuts_renderAt h.2.2 .lowest).cons (c := ' ') (by decide)
    have hb := (b.cuts_render h.2.1).append_cons (c := ',') (by decide) hn
    have hblank := hb.cons (c := ' ') (by decide)
    have hargs := (a.cuts_render h.1).append_cons (c := ',') (by decide) hblank
    rw [hlist, Predicate.tokens]
    exact (cuts_word (by decide)).append_cons (by decide) (hargs.append_cons (by decide) .nil)
  | .quant q k c p, h, parent => by
    rw [Predicate.Legible] at h
    have hkeyword : isIdentifier q.keyword = true := by cases q <;> decide
    rw [Predicate.renderAt, Predicate.tokens]
    exact Cuts.binder hkeyword h.1 (c.cuts_renderAt h.2.1 .lowest) (p.cuts_renderAt h.2.2 .lowest)

/-- The text of arguments has the tokens of the arguments. -/
theorem Expr.cuts_renderArgs : ∀ es : List Expr, Expr.LegibleAll es →
    Cuts (Expr.renderArgs es).toList (Expr.tokensAll es)
  | [], _ => by
    rw [Expr.renderArgs, Expr.tokensAll]
    exact .nil
  | e :: es, h => by
    rw [Expr.LegibleAll] at h
    obtain ⟨hes, hstops⟩ := Expr.cuts_renderMoreArgs es h.2
    rw [Expr.renderArgs, Expr.tokensAll, String.toList_append]
    exact (e.cuts_renderAt h.1 .lowest).append hes hstops

/-- The text of further arguments has the tokens of the arguments and starts with a comma. -/
theorem Expr.cuts_renderMoreArgs : ∀ es : List Expr, Expr.LegibleAll es →
    Cuts (Expr.renderMoreArgs es).toList (Expr.tokensMore es) ∧
      Stops (Expr.renderMoreArgs es).toList
  | [], _ => by
    rw [Expr.renderMoreArgs, Expr.tokensMore]
    exact ⟨.nil, stops_nil⟩
  | e :: es, h => by
    rw [Expr.LegibleAll] at h
    have hlist : (Expr.renderMoreArgs (e :: es)).toList =
        ',' :: ' ' :: ((e.renderAt .lowest).toList ++ (Expr.renderMoreArgs es).toList) := by
      simp [Expr.renderMoreArgs, String.toList_append]
    obtain ⟨hes, hstops⟩ := Expr.cuts_renderMoreArgs es h.2
    have he := (e.cuts_renderAt h.1 .lowest).append hes hstops
    rw [hlist, Expr.tokensMore]
    exact ⟨(he.cons (c := ' ') (by decide)).cons (by decide), stops_cons (by decide) _⟩

end

/-- The tokens of a predicate's text. -/
theorem Predicate.scan_render {p : Predicate} (h : p.Legible) :
    scan p.render.toList [] = p.tokens .lowest :=
  (p.cuts_renderAt h .lowest).scan_eq

/-- The tokens of an integer expression's text. -/
theorem IntExpr.scan_render {e : IntExpr} (h : e.Legible) :
    scan e.render.toList [] = e.tokens .lowest :=
  (e.cuts_renderAt h .lowest).scan_eq

end GuardedCommand
