import RingStore.Flash.Simulator
import RingStore.Session

/-!
# A session on a simulated flash

A bench joins a session with the flash that it works on.  Its steps are requests to the session and
interventions in the flash.  A request that calls the store is reported together with the accesses
that it made.
-/

namespace RingStore

/-- A session and its flash. -/
structure Bench where
  session : Session
  flash : Simulator

namespace Bench

/-- A step of a session on a bench. -/
inductive Step where
  | request (request : Request)
  | intervene (intervention : Simulator.Intervention)
  /-- Looks at the cells. -/
  | inspect (position length : Nat)

/-- What a step shows. -/
inductive Outcome where
  | replied (reply : Reply) (events : Array Event)
  | intervened
  | inspected (bytes : Bytes)

/-- Takes a step. -/
def take (bench : Bench) : Step → Outcome × Bench
  | .request request =>
    let ((reply, session), flash) :=
      (bench.session.handle request).run Simulator.device bench.flash.clearLog
    (.replied reply flash.log, { session, flash })
  | .intervene intervention =>
    (.intervened, { bench with flash := bench.flash.intervene intervention })
  | .inspect position length => (.inspected (bench.flash.cells.slice position length), bench)

/-- Takes steps one after the other. -/
def run (bench : Bench) : List Step → List Outcome × Bench
  | [] => ([], bench)
  | step :: steps =>
    let (outcome, bench) := bench.take step
    let (outcomes, bench) := bench.run steps
    (outcome :: outcomes, bench)

end Bench

end RingStore
