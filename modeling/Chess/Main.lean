import Chess.Cli.Program
import Chess.Text.Utf8

namespace Chess

/-! The executable: runs the program against the clock, the file system and the
system's randomness, prints what it printed and exits with its status. -/

namespace Cli

/-- The host of a real run. File contents are decoded as UTF-8, with the replacement
character for bytes that are not text. -/
def systemHost : Host IO where
  timed f := do
    let start ← IO.monoMsNow
    let value ← IO.lazyPure f
    let stop ← IO.monoMsNow
    pure (value, toString (stop - start))
  readFile path := do
    let handle ← try IO.FS.Handle.mk path .read catch
      | .noFileOrDirectory .. => return .unopenable missingFile
      | .inappropriateType _ 20 _ => return .unopenable notDirectory
      | e => return .unopenable (toString e)
    try
      let bytes ← handle.readBinToEnd
      pure (.contents (Utf8.decodeLossy bytes))
    catch e => pure (.unreadable (toString e))
  entropy := do
    let bytes ← IO.getRandomBytes 8
    pure (bytes.toList.foldl (fun acc b => acc * 256 + b.toUInt64) 0)

end Cli

end Chess

def main (args : List String) : IO UInt32 := do
  let exit ← Chess.Cli.run Chess.Cli.systemHost args
  let out ← IO.getStdout
  out.putStr exit.stdout
  out.flush
  if exit.status = 101 then
    (← IO.getStderr).putStrLn "the program stopped: the file cannot be read"
  pure exit.status.toUInt32
