import V2I.Lib.Loop
import V2I.Rpcc.Lexer
import Mathlib.Data.Set.Finite.Basic

/-!
# V2I.Rpcc.Imports

The stack of source files (`srcfile_stack`) and the statements that the parser reads from it:
`ParseImportStatement` opens a file unless it is one of those that are open, and the file is closed
at its end. A file is given as the statements that begin on each of its lines; a statement that
stands on a line that is omitted is not read.
-/

namespace V2I.Rpcc

/-! ## Source files -/

/-- The name of a file as it stands between quotes. -/
structure FileName where
  chars : List Char
  noQuote : Char.ofNat 34 ∉ chars

/-- An import, or anything else that is read at the place of a statement: a definition, or the
opening or closing of a module. -/
inductive Statement (D : Type)
  | import (name : FileName)
  | decl (d : D)

/-- The statements that begin on each line of a file, by its full name, and the full name of the
file that `FindFileInConfiguratedDir` and `CanonicalizeFileName` find. An import whose name stands
on the next line is one of the line where it begins. -/
structure Sources (F D : Type) where
  lines : F → List (List (Statement D))
  findFile : List Char → Option F

variable {F D I : Type}

def Sources.statements (src : Sources F D) (f : F) : List (Statement D) := (src.lines f).flatten

def Statement.decl? : Statement D → Option D
  | .decl d => some d
  | .import _ => none

@[simp]
theorem Statement.decl?_decl (d : D) : (Statement.decl d).decl? = some d := rfl

@[simp]
theorem Statement.decl?_import (name : FileName) :
    (Statement.import name : Statement D).decl? = none := rfl

/-- The names that the statements of a file define. -/
def Sources.idents (src : Sources F D) (ident : D → Option I) (f : F) : List I :=
  ((src.statements f).filterMap Statement.decl?).filterMap ident

/-! ## The parser -/

/-- `srcfile_node`. On the current line `none` stands for what is left of a file name of which only
the beginning is a symbol. -/
structure SrcfileNode (F D : Type) where
  fullFileName : F
  currLine : List (Option (Statement D))
  fp : List (List (Statement D))

/-- The stack of files, its top first, with a record of what happened: the files that were pushed,
the statements that were read, the names of imported files with what was cut out of the token, and
the definitions. -/
structure Parser (F D : Type) where
  files : List (SrcfileNode F D)
  opened : List F
  handled : List (Statement D)
  lookedUp : List (FileName × List Char)
  defined : List D

/-- The messages that end a run of the model; the parser goes on after each. -/
inductive ParseError
  | importFileNameWithoutLeftQuotation
  | importFileNameWithoutRightQuotation
  | importFileNotFound
  | identifierRedefined
  | unrecognizedStatement
  deriving DecidableEq

def quote : Char := Char.ofNat 34

/-- The text of a file name with both quotes. -/
def FileName.text (name : FileName) : List Char := quote :: (name.chars ++ [quote])

/-- The file name in a token. -/
def cutFileName (tkn : List Char) : Except ParseError (List Char) :=
  if tkn.head? ≠ some quote then .error .importFileNameWithoutLeftQuotation
  else if tkn.getLast? ≠ some quote then .error .importFileNameWithoutRightQuotation
  else .ok ((tkn.drop 1).take (tkn.length - 1 - 1))

section Parse

variable [DecidableEq F] [DecidableEq I] (src : Sources F D) (ident : D → Option I)

/-- `IsFullNameExist` -/
def isFullNameExist (files : List (SrcfileNode F D)) (fullname : F) : Bool :=
  files.any fun node => node.fullFileName = fullname

/-- `push` -/
def Parser.push (p : Parser F D) (fullname : F) : Parser F D :=
  { p with
    files := ⟨fullname, [], src.lines fullname⟩ :: p.files
    opened := p.opened ++ [fullname] }

/-- `ParseImportStatement` in the file `node`, with the other files open below it. -/
def parseImportStatement (p : Parser F D) (node : SrcfileNode F D) (files : List (SrcfileNode F D))
    (name : FileName) : Except ParseError (Parser F D) :=
  let tkn := name.text.takeWhile isWordChar
  let left := name.text.dropWhile isWordChar
  match cutFileName tkn with
  | .error e => .error e
  | .ok filename =>
      match src.findFile filename with
      | none => .error .importFileNotFound
      | some fullname =>
          let p := { p with lookedUp := p.lookedUp ++ [(name, filename)] }
          if isFullNameExist (node :: files) fullname then
            .ok { p with files := { node with currLine := [] } :: files }
          else
            let currLine := if left = [] then node.currLine else none :: node.currLine
            .ok (Parser.push src { p with files := { node with currLine } :: files } fullname)

/-- The name that a statement defines is used. -/
def Parser.isIdentifierUsed (p : Parser F D) (d : D) : Bool :=
  match ident d with
  | none => false
  | some x => (p.defined.filterMap ident).contains x

/-- One round of `GetSymbol` or of the loop of the parser: a file is closed at its end, a line is
loaded, or a statement is read. -/
def step (p : Parser F D) : Except ParseError (Parser F D) ⊕ Parser F D :=
  match p.files with
  | [] => .inl (.ok p)
  | node :: files =>
      match node.currLine with
      | [] =>
          match node.fp with
          | [] => .inr { p with files }
          | line :: fp =>
              .inr { p with files := { node with currLine := line.map some, fp } :: files }
      | none :: _ => .inl (.error .unrecognizedStatement)
      | some (.decl d) :: currLine =>
          if p.isIdentifierUsed ident d then .inl (.error .identifierRedefined)
          else .inr { p with
            files := { node with currLine } :: files
            handled := p.handled ++ [.decl d]
            defined := p.defined ++ [d] }
      | some (.import name) :: currLine =>
          match parseImportStatement src { p with handled := p.handled ++ [.import name] }
              { node with currLine } files name with
          | .error e => .inl (.error e)
          | .ok p => .inr p

/-- The parser before it reads the root. -/
def start (root : F) : Parser F D := ⟨[⟨root, [], src.lines root⟩], [root], [], [], []⟩

/-- Parsing the root ends without a message, with the record `p`. -/
def Parses (root : F) (p : Parser F D) : Prop :=
  Loop.Returns (step src ident) (start src root) (.ok p)

end Parse

/-! ## What imports are for -/

section Spec

variable (src : Sources F D) (ident : D → Option I) (root : F)

def Imports (f g : F) : Prop :=
  ∃ name, .import name ∈ src.statements f ∧ src.findFile name.chars = some g

def Reachable (f : F) : Prop := Relation.ReflTransGen (Imports src) root f

/-- Each reachable file is read exactly once, and the definitions are those of all the files. -/
structure ReadOnce [DecidableEq F] [DecidableEq I] (p : Parser F D) : Prop where
  parses : Parses src ident root p
  opened_nodup : p.opened.Nodup
  opened_iff : ∀ f, f ∈ p.opened ↔ Reachable src root f
  handled : p.handled.Perm (p.opened.flatMap src.statements)
  lookedUp : ∀ e ∈ p.lookedUp, e.2 = e.1.chars
  defined : p.defined.Perm (p.opened.flatMap fun f => (src.statements f).filterMap Statement.decl?)

/-- A chain of imports from the root that comes to no file twice: the places of its imports, and
the files it comes to, the last one first. -/
inductive Chain : List ℕ → List F → Prop
  | root : Chain [] [root]
  | import {a c f i name g} : Chain a (f :: c) → (src.statements f)[i]? = some (.import name) →
      src.findFile name.chars = some g → g ∉ f :: c → Chain (a ++ [i]) (g :: f :: c)

/-- Every import on these lines names a file by one symbol; what follows an import of a file of `c`
is on another line. -/
def Tidy (c : List F) (lines : List (List (Statement D))) : Prop :=
  ∀ l ∈ lines, ∀ before name after, l = before ++ .import name :: after →
    (∀ ch ∈ name.chars, isWordChar ch) ∧
      ∃ g, src.findFile name.chars = some g ∧ (g ∈ c → after = [])

/-- The imports form a tree but for those that close a cycle. -/
structure ImportTree : Prop where
  unique : ∀ a b f c d, Chain src root a (f :: c) → Chain src root b (f :: d) → a = b
  tidy : ∀ a f c, Chain src root a (f :: c) → Tidy src (f :: c) (src.lines f)
  idents_nodup : ∀ f, Reachable src root f → (src.idents ident f).Nodup
  idents_disjoint : ∀ f g, Reachable src root f → Reachable src root g → f ≠ g →
    (src.idents ident f).Disjoint (src.idents ident g)

end Spec

end V2I.Rpcc
