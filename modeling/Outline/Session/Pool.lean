import Outline.Error

/-!
# Parser pools

A pool owns the parsers of one grammar, at most `maxSize` of them. It creates a parser when none is
idle, and once it may create no more, a borrower waits until one is brought back. The parsers of a
pool are alike, so that their number is all there is to know.

Each operation on the pool is one indivisible step; `acquire` is made of such steps.
-/

namespace Outline

/-- A pool of parsers. -/
structure Pool where
  grammar : Grammar
  /-- The most parsers that the pool creates, and that it keeps idle. -/
  maxSize : Nat
  /-- The number of parsers that the pool has created. -/
  created : Nat
  /-- The number of parsers that wait to be lent. -/
  idle : Nat
  closed : Bool
deriving DecidableEq, Inhabited

/-- The answer to a borrower. -/
inductive Loan where
  /-- A parser is lent; this is the pool without it. -/
  | granted (pool : Pool)
  | poolClosed
  /-- All parsers are on loan, and no more may be created. -/
  | wait
deriving DecidableEq

namespace Pool

/-- A new pool for a known grammar. It has room for one parser at least. -/
def new (grammar : Grammar) (maxSize : Nat) : Except ParseError Pool :=
  if grammar.isKnown then .ok ⟨grammar, max maxSize 1, 0, 0, false⟩ else .error .unknownLanguage

/-- Lend an idle parser. -/
def takeIdle? (p : Pool) : Option Pool :=
  if p.idle = 0 then none else some { p with idle := p.idle - 1 }

/-- Create a parser to lend. -/
def create? (p : Pool) : Option Pool :=
  if p.created < p.maxSize then some { p with created := p.created + 1 } else none

/-- Whether a borrower would have to wait. -/
def isExhausted (p : Pool) : Bool :=
  p.maxSize ≤ p.created && p.idle == 0

/-- Borrow a parser: an idle one, or else a new one. -/
def acquire (p : Pool) : Loan :=
  if p.closed then .poolClosed
  else match p.takeIdle?, p.create? with
    | some rest, _ => .granted rest
    | none, some rest => .granted rest
    | none, none => .wait

/-- Bring a parser back. It is destroyed if the pool is closed or has no room. -/
def release (p : Pool) : Pool :=
  if p.closed then p
  else if p.idle < p.maxSize then { p with idle := p.idle + 1 }
  else p

/-- Destroy the idle parsers, one after the other: their number, and the pool without them. -/
def drain (p : Pool) : Nat × Pool :=
  if p.idle = 0 then (0, p)
  else
    let (count, rest) := drain { p with idle := p.idle - 1 }
    (count + 1, rest)
termination_by p.idle

/-- Close the pool: the number of idle parsers that this destroys, and the closed pool. -/
def shut (p : Pool) : Nat × Pool :=
  drain { p with closed := true }

/-- The pool after it is closed. -/
def close (p : Pool) : Pool :=
  p.shut.2

/-- The size for the pools of a machine with some processors: two parsers for each, and between 4
    and 32 of them. -/
def sizeFor (processors : Nat) : Nat :=
  min (max (2 * processors) 4) 32

end Pool

end Outline
