import QueryDoc.Cache
import QueryDoc.Document.Parse
import QueryDoc.Files.Content
import QueryDoc.Session.Merge
import QueryDoc.Source

/-!
# Sessions

A session parses sources and remembers them: equal keys give one and the same document, and alike
fragments one instance, until the session is reset. New instances are numbered from a counter that
all sessions share, so that an instance is never mistaken for one of another session.
-/
namespace QueryDoc

structure Settings where
  fragmentWarnings : Bool := true
  fragmentVariables : Bool := false
  deriving DecidableEq, Repr

def Settings.parseOptions (s : Settings) : ParseOptions := ⟨s.fragmentVariables⟩

structure Session where
  settings : Settings
  cache : Cache
  registry : Registry
  deriving Repr

/-- Why a source or a file gives no document. -/
inductive Failure where
  | parse (f : ParseFailure)
  | content (e : Files.ContentError)
  deriving Repr

namespace Failure

def isSyntaxError : Failure → Bool
  | parse _ => true
  | content _ => false

/-- The message of a failure; one that stops the program has none. -/
def message? : Failure → Option String
  | parse (.error e) => some ("GraphQL syntax error: " ++ e.message)
  | parse .abort => none
  | content e => some e.message

end Failure

/-- What a successful call gives: the document, the session behind it, the next free number, and the
warnings. -/
structure Reply where
  document : Instance Document
  session : Session
  next : Nat
  warnings : List Warning
  deriving Repr

/-- Makes instances of definitions, numbered from `next` on. -/
def instances (next : Nat) (definitions : List Definition) : List Node :=
  definitions.mapIdx fun i d => d.instance (next + i)

/-- Parses a text on its own: its nodes are new instances, as is the document, whose number is the
first one behind theirs. -/
def parseAlone (options : ParseOptions) (next : Nat) (text : String) :
    Except ParseFailure (Instance Document × Nat) := do
  let nodes := instances next (← parse options text)
  return (⟨next + nodes.length, ⟨nodes, text⟩⟩, next + nodes.length + 1)

namespace Session

def new (settings : Settings) : Session := ⟨settings, .empty, .empty⟩

/-- The definitions of a source's own text. A source that only embeds documents has none. -/
def parsePrimary (s : Session) (source : Source) : Except ParseFailure (List Definition) :=
  if !source.embedded.isEmpty && !hasTokens source.primary then .ok []
  else QueryDoc.parse s.settings.parseOptions source.primary

/-- The nodes of a source: its own and then those of the documents that it embeds. -/
def combine (next : Nat) (own : List Definition) (source : Source) : List Node :=
  instances next own ++ source.embedded.flatMap fun d => d.value.definitions

/-- Parses a source that is not in the cache. Nothing changes unless its own text can be read. -/
def resolve (s : Session) (next : Nat) (source : Source) : Except ParseFailure Reply := do
  let own ← s.parsePrimary source
  let merged := Merge.all s.registry (combine next own source)
  let d : Instance Document := ⟨next + own.length, ⟨merged.kept, source.assembled⟩⟩
  return {
    document := d
    session := { s with
      cache := s.cache.put (key source.assembled) d
      registry := merged.registry }
    next := next + own.length + 1
    warnings := if s.settings.fragmentWarnings then merged.warnings else [] }

/-- The document of a source: the one under its key in the cache, or a new one. -/
def parse (s : Session) (next : Nat) (source : Source) : Except ParseFailure Reply :=
  match s.cache.get? (key source.assembled) with
  | some d => .ok ⟨d, s, next, []⟩
  | none => s.resolve next source

/-- The document of a file's content. -/
def parseFile (s : Session) (next : Nat) (v : Files.Volume) (path : String) :
    Except Failure Reply := do
  let text ← (Files.read v path).mapError .content
  (s.parse next (.ofText text)).mapError .parse

/-- Forgets all documents and fragments, and keeps the settings. -/
def reset (s : Session) : Session := new s.settings

def setWarnings (on : Bool) (s : Session) : Session :=
  { s with settings := { s.settings with fragmentWarnings := on } }

def setVariables (on : Bool) (s : Session) : Session :=
  { s with settings := { s.settings with fragmentVariables := on } }

end Session

end QueryDoc
