import BytePattern.Proofs.Command.Lines
import BytePattern.Proofs.Search.Cutoff

/-!
# Results and failures

A command that exits with zero has printed all of what the library answered, and nothing else, unless it
was asked for help. One that exits with one has complained, and printed nothing: only the matches of a
sequence are printed as they come, so that those before a search beyond the limit are there
(`run_keptApart`).
-/
namespace BytePattern
namespace Command

example : run (["gmatch", "--budget", "9", "b cccb", "a*b"].map utf8) [] =
    .failure (utf8 "b\n") (.budgetExceeded 9) := by
  decide +kernel

end Command
end BytePattern
