import Chess.Journal
import Chess.Notation.Fen

namespace Chess

/-! A game history: a tree of moves over one board. Every node holds a move played from its
parent's position; a node's continuations list the moves played from it, the first being
the main line and the others variations. The board always stands at the current node, with
the moves of the line to it executed. Node ids are given in order of creation and are never
reused; removed nodes leave an empty slot. -/

/-- A node's place in the history's arena. -/
structure NodeId where
  index : Nat
  deriving DecidableEq, Repr, Inhabited

/-- A move of the tree with its parent and the moves played after it. -/
structure Node where
  move : Move
  parent : Option NodeId
  continuations : Array NodeId := #[]
  deriving Inhabited

/-- A tree of moves over a board standing at the current node. -/
structure History where
  board : Board
  nodes : Array (Option Node) := #[]
  root : Array NodeId := #[]
  current : Option NodeId := none
  startFen : String
  startSide : Color
  startFullmove : UInt32
  deriving Inhabited

namespace History

def new (b : Board) : History :=
  { board := b, startFen := b.fen, startSide := b.side, startFullmove := b.fullmove }

def node? (h : History) (id : NodeId) : Option Node := (h.nodes[id.index]?).join

def get? (h : History) (id : NodeId) : Option Move := (h.node? id).map (·.move)

def parent? (h : History) (id : NodeId) : Option NodeId := (h.node? id).bind (·.parent)

def contains (h : History) (id : NodeId) : Bool := (h.node? id).isSome

/-- The continuations after a node, or after the start for `none`; none for a missing
node. -/
def continuations? (h : History) : Option NodeId → Option (Array NodeId)
  | none => some h.root
  | some id => (h.node? id).map (·.continuations)

def modifyContinuations (h : History) (at_ : Option NodeId) (f : Array NodeId → Array NodeId) :
    History :=
  match at_ with
  | none => { h with root := f h.root }
  | some id =>
    { h with nodes := h.nodes.modify id.index fun slot =>
        slot.map fun n => { n with continuations := f n.continuations } }

def lineTo (h : History) (target : Option NodeId) : List NodeId :=
  go (h.nodes.size + 1) target []
where
  /-- Walks up at most `fuel` parents, collecting nodes in front of `acc`. -/
  go : Nat → Option NodeId → List NodeId → List NodeId
    | 0, _, acc => acc
    | _, none, acc => acc
    | fuel + 1, some id, acc => go fuel (h.parent? id) (id :: acc)

def currentLine (h : History) : List NodeId := h.lineTo h.current

def mainLine (h : History) : List NodeId :=
  go (h.nodes.size + 1) h.root[0]?
where
  /-- Follows first continuations at most `fuel` times. -/
  go : Nat → Option NodeId → List NodeId
    | 0, _ => []
    | _, none => []
    | fuel + 1, some id => id :: go fuel ((h.node? id).bind fun n => n.continuations[0]?)

def isMainLine (h : History) (id : NodeId) : Bool := h.mainLine.contains id

/-- The move number and side of the move played after a node: plies from the start, counted
from the start's side and full-move number. -/
def moveNumber (h : History) (at_ : Option NodeId) : UInt32 × Color :=
  let plies := (h.lineTo at_).length.toUInt32
  let offset : UInt32 := if h.startSide = .white then 0 else 1
  let side := if (plies + offset) % 2 = 0 then Color.white else Color.black
  (h.startFullmove + (plies + offset) / 2, side)

end History

end Chess
