import DeclTree.Literal.Pool

/-!
# Interning in parallel

Clients on several threads may share one pool.  Each interns texts one after the other, and each
call takes one step or two: a lookup, and if that finds nothing, an insertion that looks again.  A
step is atomic, but any number of steps of other clients may come between the two steps of a call,
so what the lookup did not find may be there when the insertion is made.

A call takes effect with the step that answers it.  A run records the calls in the order in which
they took effect.
-/

namespace DeclTree.Literal

/-- One client interns texts of files, one after the other. -/
def LiteralPool.internAll (pool : LiteralPool) :
    List (String × String) → List LiteralId × LiteralPool
  | [] => ([], pool)
  | (file, text) :: rest =>
    let (id, after) := pool.intern file text
    let (ids, last) := after.internAll rest
    (id :: ids, last)

/-- A client in the course of its calls. -/
structure Client where
  /-- The files and texts that it has still to intern, the call under way included. -/
  waiting : List (String × String)
  /-- Whether the lookup of the call under way found nothing. -/
  missed : Bool
  /-- The files and texts that it has interned, with the numbers it got. -/
  answered : List ((String × String) × LiteralId)

/-- A client before its first call. -/
def Client.start (work : List (String × String)) : Client := ⟨work, false, []⟩

/-- The next step of a client, the call that it answers, if any, and the pool that all share. -/
inductive Client.Step :
    LiteralPool → Client → Option ((String × String) × LiteralId) → LiteralPool → Client → Prop
  | found {pool : LiteralPool} {file text : String} {id : LiteralId}
    {rest : List (String × String)} {answered : List ((String × String) × LiteralId)}
    (h : pool.lookup file text = some id) :
    Step pool ⟨(file, text) :: rest, false, answered⟩ (some ((file, text), id))
      pool ⟨rest, false, answered ++ [((file, text), id)]⟩
  | missing {pool : LiteralPool} {file text : String}
    {rest : List (String × String)} {answered : List ((String × String) × LiteralId)}
    (h : pool.lookup file text = none) :
    Step pool ⟨(file, text) :: rest, false, answered⟩ none
      pool ⟨(file, text) :: rest, true, answered⟩
  | inserted {pool after : LiteralPool} {file text : String} {id : LiteralId}
    {rest : List (String × String)} {answered : List ((String × String) × LiteralId)}
    (h : pool.insertIfAbsent file text = (id, after)) :
    Step pool ⟨(file, text) :: rest, true, answered⟩ (some ((file, text), id))
      after ⟨rest, false, answered ++ [((file, text), id)]⟩

/-- Clients and the pool that they share. -/
structure Sharing where
  /-- The pool. -/
  pool : LiteralPool
  /-- The clients. -/
  clients : List Client

/-- A call that has taken effect. -/
structure Effect where
  /-- The index of the client. -/
  client : Nat
  /-- The file and the text. -/
  entry : String × String
  /-- The number that the client got. -/
  id : LiteralId

namespace Sharing

/-- The clients before any step. -/
def start (pool : LiteralPool) (work : List (List (String × String))) : Sharing :=
  ⟨pool, work.map Client.start⟩

/-- All clients are through. -/
def Ended (s : Sharing) : Prop := ∀ client ∈ s.clients, client.waiting = []

/-- The clients take steps in any order; `history` lists the calls as they take effect. -/
inductive Run (s : Sharing) : (history : List Effect) → Sharing → Prop
  | refl : Run s [] s
  | step {history : List Effect} {pool pool' : LiteralPool} {before after : List Client}
    {client client' : Client} {answer : Option ((String × String) × LiteralId)}
    (run : Run s history ⟨pool, before ++ client :: after⟩)
    (h : client.Step pool answer pool' client') :
    Run s (history ++ answer.toList.map fun a => ⟨before.length, a.1, a.2⟩)
      ⟨pool', before ++ client' :: after⟩

end Sharing

end DeclTree.Literal
