import Athomux.Lib.Passes
import Mathlib.Logic.Function.Basic

/-!
# Parameters of macros

`eval_macros` of `pre.pl` puts the arguments of a call into the body of the macro, one parameter
after the other. A parameter with a type becomes a variable that `insert_pseudoparam` declares at the
first brace. This is the body as it is before it is scanned for more macros.
-/

namespace Athomux.Macro

/-! ## Texts -/

/-- A text is cut into words and what is between them, with strings and comments cut like the rest.
Blanks are left out, and braces are those of blocks. -/
inductive Lex
  | word (s : String)
  | dots
  | opening
  | closing
  | other (c : Char)
  deriving DecidableEq, Repr

/-- The blocks that are open behind a piece. A text that ends a block it did not begin has no
depth. -/
def nest : Nat → Lex → Option Nat
  | n, .opening => some (n + 1)
  | 0, .closing => none
  | n + 1, .closing => some n
  | n, _ => some n

def depth (n : Nat) (l : List Lex) : Option Nat := l.foldlM nest n

/-- `$wsargmatch` pairs the braces. -/
structure Arg where
  text : List Lex
  balanced : depth 0 text = some 0

/-- `source` is the parameter whose argument or variable the piece is. Nothing looks at it but the
specification. -/
structure Tok where
  lex : Lex
  source : Option Lex
  deriving DecidableEq, Repr

abbrev Text := List Tok

def mark (source : Option Lex) (l : List Lex) : Text := l.map fun x => ⟨x, source⟩

/-- `type name = value; (void)name;` -/
structure Decl where
  type : Text
  name : Text
  value : Text
  deriving DecidableEq

/-- A piece of the body, with the declarations right behind it. -/
structure Node where
  tok : Tok
  decls : List Decl
  deriving DecidableEq

def Node.bare (x : Tok) : Node := ⟨x, []⟩

abbrev Body := List Node

/-! ## `eval_macros` -/

/-- `s/(?<!\w)$param(?!\w)/$subst/mg` -/
def replaceWord (key : Lex) (subst : Text) (t : Text) : Text :=
  t.flatMap fun x => if x.lex = key then subst else [x]

def Decl.replace (key : Lex) (subst : Text) (d : Decl) : Decl :=
  ⟨replaceWord key subst d.type, replaceWord key subst d.name, replaceWord key subst d.value⟩

def replaceBody (key : Lex) (subst : Text) (b : Body) : Body :=
  b.flatMap fun n =>
    if n.tok.lex = key then subst.map Node.bare else [⟨n.tok, n.decls.map (Decl.replace key subst)⟩]

/-- The declaration stands behind the first brace, in front of those that are there. The declarations
of labels that the source skips have no names in common with variables, and it does not skip them
here. -/
def insertPseudoparam (d : Decl) : Body → Option Body
  | [] => none
  | n :: b =>
    if n.tok.lex = .opening then some (⟨n.tok, d :: n.decls⟩ :: b)
    else (insertPseudoparam d b).map (n :: ·)

structure Typed where
  type : List Lex
  name : String
  arg : Arg

def Typed.key (d : Typed) : Lex := .word d.name

/-- The C language would take the new variable for the one in the argument. -/
def Typed.Renamed (d : Typed) : Prop := d.key ∈ d.arg.text

instance (d : Typed) : Decidable d.Renamed := inferInstanceAs (Decidable (_ ∈ _))

/-- `$newparam` -/
def Typed.var (d : Typed) : String := if d.Renamed then "__q_" ++ d.name ++ "_" else d.name

/-- What stands in the body for the parameter. -/
def Typed.use (d : Typed) : Tok := ⟨.word d.var, if d.Renamed then some d.key else none⟩

def Typed.decl (d : Typed) : Decl := ⟨mark none d.type, [d.use], mark (some d.key) d.arg.text⟩

/-- A parameter with its argument. `rest` is `...`. -/
inductive Param
  | plain (name : String) (arg : Arg)
  | rest (arg : Arg)
  | typed (d : Typed)

def Param.key : Param → Lex
  | .plain name _ => .word name
  | .rest _ => .dots
  | .typed d => d.key

def Param.arg : Param → Arg
  | .plain _ arg | .rest arg => arg
  | .typed d => d.arg

def Param.variable : Param → Option Typed
  | .typed d => some d
  | _ => none

/-- What comes in the place of the parameter. -/
def Param.put : Param → Option Text
  | .plain name arg => some (mark (some (.word name)) arg.text)
  | .rest arg => some (mark (some .dots) arg.text)
  | .typed d => if d.Renamed then some [d.use] else none

def substParam (b : Body) : Param → Option Body
  | .plain name arg => some (replaceBody (.word name) (mark (some (.word name)) arg.text) b)
  | .rest arg => some (replaceBody .dots (mark (some .dots) arg.text) b)
  | .typed d => insertPseudoparam d.decl (if d.Renamed then replaceBody d.key [d.use] b else b)

structure Call where
  body : List Lex
  params : List Param
  distinct : (params.map Param.key).Nodup

def Call.typed (c : Call) : List Typed := c.params.filterMap Param.variable

def evalMacro (c : Call) : Option Body :=
  c.params.foldlM substParam ((mark none c.body).map Node.bare)

/-! ## The C compiler -/

/-- The value of an expression depends on the variables in it. -/
def Local {V : Type} (eval : List Lex → (String → V) → V) : Prop :=
  ∀ e env env', (∀ w, .word w ∈ e → env w = env' w) → eval e env = eval e env'

/-- In its own initializer the new variable hides an outer one already, and has no value yet. -/
def declare {V : Type} (eval : List Lex → (String → V) → V) (garbage : V) (env : String → V)
    (d : Decl) : String → V :=
  match d.name.map Tok.lex with
  | [.word v] =>
    Function.update env v (eval (d.value.map Tok.lex) (Function.update env v garbage))
  | _ => env

/-- Every `u` stands in a block, which is not closed as long as there is a depth. -/
def StaysIn (u : Tok) : Option Nat → Text → Prop
  | _, [] => True
  | st, x :: t => (x = u → st.isSome) ∧ StaysIn u (st.bind (nest · x.lex)) t

/-! ## What a call should give -/

/-- All parameters at once. -/
def Param.pass (p : Param) : Lib.Pass Tok (Option Lex) where
  mark := some p.key
  put x := if x.lex = p.key then p.put else none

def simultaneous (params : List Param) (t : Text) : Text :=
  t.flatMap (Lib.Pass.once (params.map Param.pass))

/-- The declarations are together in one block of the body, with all uses of the variables, and each
variable gets the value that the argument has outside. -/
structure Right (c : Call) (b : Body) : Prop where
  text : b.map Node.tok = simultaneous c.params (mark none c.body)
  block : c.typed = [] ∨ ∃ front back,
    b = front ++ ⟨⟨.opening, none⟩, (c.typed.map Typed.decl).reverse⟩ :: back ∧
      (∀ n ∈ front ++ back, n.decls = []) ∧
      ∀ d ∈ c.typed, d.use ∉ front.map Node.tok ∧ StaysIn d.use (some 0) (back.map Node.tok)
  names : (c.typed.map Typed.var).Nodup
  value : ∀ (V : Type) (eval : List Lex → (String → V) → V) (garbage : V) (env : String → V),
    Local eval → ∀ d ∈ c.typed,
      (b.flatMap Node.decls).foldl (declare eval garbage) env d.var = eval d.arg.text env

/-! ## When it does -/

/-- A later parameter finds nothing in what an earlier one put into the body. A variable must not
hide what an argument means either. -/
def Keeps (body : List Lex) : Param → Param → Prop
  | .typed d, k =>
    (k.put.isSome → k.key ∉ d.type ∧ k.key ≠ .word d.var ∧ k.key ∉ d.arg.text) ∧
      ∀ e, k.variable = some e → e.var ≠ d.var ∧ .word e.var ∉ d.arg.text
  | p, k => p.key ∈ body → k.put.isSome → k.key ∉ p.arg.text

structure Safe (c : Call) : Prop where
  keeps : c.params.Pairwise (Keeps c.body)
  own : ∀ d ∈ c.typed, .word d.var ∉ d.arg.text

/-- Variables are used in the first block only, and no argument begins one in front of it while
there are variables to come. -/
def FirstBlock (c : Call) : Prop :=
  c.typed = [] ∨ ∃ front back, c.body = front ++ .opening :: back ∧ .opening ∉ front ∧
    (c.params.Pairwise fun p k =>
      k.variable.isSome → p.variable = none → p.key ∈ front → .opening ∉ p.arg.text) ∧
    ∀ d ∈ c.typed, d.key ∉ front ∧ StaysIn ⟨d.key, none⟩ (some 0) (mark none back)

end Athomux.Macro
