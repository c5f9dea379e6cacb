import Chess.Move.Execute

namespace Chess

/-! The journal: diagnostic records and board events, in the order they happen. The rules
themselves are pure functions; the journaled forms here run them and add what a watcher of
the board would see: a trace after each regeneration with a king to move, a debug record per
move played or taken back, and the events of a watched board. -/

/-- How important a diagnostic record is. -/
inductive Level where
  | trace
  | debug
  | warn
  deriving DecidableEq, Repr, Inhabited

def Level.name : Level → String
  | .trace => "TRACE"
  | .debug => "DEBUG"
  | .warn => "WARN"

/-- What a watched board announces. -/
inductive BoardEvent where
  | moved
  | unmoved
  | traversalBegin
  | traversalEnd
  deriving DecidableEq, Repr, Inhabited

def BoardEvent.name : BoardEvent → String
  | .moved => "Move"
  | .unmoved => "Unmove"
  | .traversalBegin => "TraversalBegin"
  | .traversalEnd => "TraversalEnd"

/-- One entry of the journal. -/
inductive Entry where
  | record (level : Level) (text : String)
  | event (e : BoardEvent)
  deriving DecidableEq, Repr, Inhabited

abbrev Noted := StateM (Array Entry)

def Noted.add (e : Entry) : Noted Unit := modify (·.push e)

def Noted.log (level : Level) (text : String) : Noted Unit := Noted.add (.record level text)

/-- The value of a journaled computation started on an empty journal, its records dropped. -/
def Noted.quiet {α : Type} (act : Noted α) : α := (Id.run (act.run #[])).1

def Noted.regenerated (b : Board) : Noted Unit :=
  match b.regenerationNote? with
  | some text => Noted.log .trace text
  | none => pure ()

/-- Runs a board edit that regenerates, tracing the result when it succeeds. -/
def Noted.edit {α : Type} (r : Except MoveError α) (board : α → Board) :
    Noted (Except MoveError α) := do
  if let .ok a := r then Noted.regenerated (board a)
  pure r

namespace Move

/-- The move and its squares, as the journal names a move played or taken back. -/
def journalName (m : Move) : String :=
  m.san ++ " (" ++ m.origin.name ++ m.target.name ++ ")"

def executeNoted (m : Move) (b : Board) : Noted (Except MoveError (Move × Board)) := do
  match m.execute b with
  | .ok (m', b') =>
    Noted.regenerated b'
    Noted.log .debug ("executed " ++ m'.journalName)
    pure (.ok (m', b'))
  | .error e => pure (.error e)

def unexecuteNoted (m : Move) (b : Board) : Noted (Except MoveError (Move × Board)) := do
  match m.unexecute b with
  | .ok (m', b') =>
    Noted.regenerated b'
    Noted.log .debug ("unexecuted " ++ m'.journalName)
    pure (.ok (m', b'))
  | .error e => pure (.error e)

def rehearseNoted (m : Move) (b : Board) : Noted (Except MoveError Move) := do
  match ← m.executeNoted b with
  | .ok (played, afterPlay) =>
    match ← played.unexecuteNoted afterPlay with
    | .ok (taken, _) => pure (.ok { taken with promoted := none })
    | .error e => pure (.error e)
  | .error e => pure (.error e)

def newNoted (b : Board) (origin target : Square) (promotion : Option PieceKind) :
    Noted (Except MoveError Move) :=
  match prepare b origin target promotion with
  | .ok m => m.rehearseNoted b
  | .error e => pure (.error e)

def castleOnNoted (b : Board) (side : CastleSide) : Noted (Except MoveError Move) :=
  let c := b.side
  match b.king c with
  | none => pure (.error (.illegalMove (c.name ++ " has no king")))
  | some king =>
    match (b.piece king).square with
    | none => pure (.error (.illegalMove (c.name ++ " has no king")))
    | some origin =>
      (build b king origin (Square.make side.kingFile (Rank.back c)) none (some side)).rehearseNoted b

end Move

namespace Board

def standardNoted : Noted Board := do
  Noted.regenerated standard
  pure standard

/-- `Board.ofSetup` with the trace of every placement and of the final regeneration. -/
def ofSetupNoted (st : Setup) : Noted (Except MoveError Board) := do
  let mut b := empty
  for s in setupOrder do
    match placeFromSetup st b s with
    | .ok next =>
      if st.letterAt s.file.index s.rank.index ≠ ' ' then Noted.regenerated next
      b := next
    | .error e => return .error e
  Noted.edit (finishSetup st b) id

end Board

end Chess
