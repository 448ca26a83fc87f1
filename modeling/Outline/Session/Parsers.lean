import Outline.Session.Pool
import Outline.Tree.Basic

/-!
# Parsers

One pool for each grammar, made when the grammar is first needed. A parser is borrowed for the time
of one parse only.
-/

namespace Outline

/-- What turns a source into a tree of a grammar. -/
structure Frontend where
  parse : Grammar → Source → Option Tree

/-- A tree with what it was parsed from. -/
structure Parsed where
  tree : Tree
  grammar : Grammar
  source : Source

/-- The frontend that knows the trees of some sources, and of no others. -/
def Frontend.ofParsed (known : List Parsed) : Frontend :=
  ⟨fun g src => (known.find? fun p => p.grammar == g && p.source == src).map (·.tree)⟩

/-- The parsers of a session. -/
structure Parsers where
  pools : List Pool
  /-- The size of each pool. -/
  poolSize : Nat
  /-- The number of parses that were asked for. -/
  calls : Nat
  closed : Bool
deriving DecidableEq, Inhabited

namespace Parsers

/-- No parsers yet. -/
def new (poolSize : Nat) : Parsers :=
  ⟨[], max poolSize 1, 0, false⟩

/-- The number of parsers in all pools. -/
def created (ps : Parsers) : Nat :=
  ps.pools.foldr (fun p n => p.created + n) 0

/-- The pool of a grammar. -/
def pool? (ps : Parsers) (g : Grammar) : Option Pool :=
  ps.pools.find? (·.grammar == g)

/-- Put a pool in the place of the one with its grammar, or after the others. -/
def put (pools : List Pool) (p : Pool) : List Pool :=
  match pools with
  | [] => [p]
  | q :: qs => if q.grammar = p.grammar then p :: qs else q :: put qs p

/-- The pool of a grammar, made if there is none. -/
def poolFor (ps : Parsers) (g : Grammar) : Except ParseError Pool :=
  match ps.pool? g with
  | some p => .ok p
  | none => Pool.new g ps.poolSize

/-- Parse with a borrowed parser, and bring it back. Where a borrower would have to wait, nobody can
    bring a parser back while this parse runs, so that the wait fails. -/
def parseWith (ps : Parsers) (p : Pool) (frontend : Frontend) (src : Source) :
    Except ParseError Parsed × Parsers :=
  match p.acquire with
  | .granted lent =>
    (match frontend.parse p.grammar src with
      | some tree => .ok ⟨tree, p.grammar, src⟩
      | none => .error .noTree,
     { ps with pools := put ps.pools lent.release })
  | .poolClosed | .wait =>
    (.error (.acquire (.poolClosed p.grammar)), { ps with pools := put ps.pools p })

/-- Parse a source in a language. The parse is counted in any case. -/
def parse (ps : Parsers) (frontend : Frontend) (language : Language) (jsx : Bool) (src : Source) :
    Except ParseError Parsed × Parsers :=
  let ps := { ps with calls := ps.calls + 1 }
  if language = .unknown then (.error .unknownLanguage, ps)
  else if ps.closed then (.error .closed, ps)
  else match ps.poolFor (.of language jsx) with
    | .ok p => ps.parseWith p frontend src
    | .error e => (.error (.pool e), ps)

/-- Close all pools and forget them. -/
def close (ps : Parsers) : Parsers :=
  { ps with pools := [], closed := true }

end Parsers

end Outline
