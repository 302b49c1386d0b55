import BytePattern.Command.Run

/-!
# The program

Reads the command line and, where the command asks for it, the standard input, and prints the outcome.
-/
namespace BytePattern

partial def readAll (stream : IO.FS.Stream) (read : ByteArray) : IO ByteArray := do
  let chunk ← stream.read 65536
  if chunk.isEmpty then return read else readAll stream (read ++ chunk)

end BytePattern

open BytePattern

def main (args : List String) : IO UInt32 := do
  let outcome ←
    match Command.plan (args.map utf8) with
    | .error outcome => pure outcome
    | .ok (st, job) => do
      let input ← if job.readsInput then readAll (← IO.getStdin) .empty else pure .empty
      pure (job.run st input.toList)
  (← IO.getStdout).write outcome.stdout.toByteArray
  (← IO.getStderr).write outcome.stderr.toByteArray
  return outcome.exit
