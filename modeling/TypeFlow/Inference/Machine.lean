import TypeFlow.Inference.Reaction
import TypeFlow.Inference.Resolution
import TypeFlow.Inference.Visit

/-! Running tasks. A fault drops all waiting tasks, but the marks among them still take effect:
no call stays busy, and each walk is back in the class that it came from. -/

namespace TypeFlow

namespace Graph

/-- Does one task. -/
def perform (g : Graph) : Task → Step
  | .visit w e n => g.visit w e n
  | .store n t => g.storeType n t
  | .widen n t => g.widenType n t
  | .subscribe s o r => g.subscribe s o r
  | .deliver s o r => g.react (some s) o r (g.type s)
  | .react s o r t => g.react s o r t
  | .notify n => g.notify n
  | .bind w p n => g.bind w p n
  | .resolve c => g.resolve c
  | .aim c t => (g.modifySite c fun s => { s with target := some t }).next []
  | .member d r as => g.addMember d r as
  | .markNew c => (g.modifySite c fun s => { s with isNew := true }).next []
  | .finish c _ => (g.modifySite c fun s => { s with busy := false }).next []
  | .leave w outer => (g.modifyWalk w fun x => { x with klass := outer }).next []

/-- Drops the waiting tasks after a fault. The fault is told by each call whose method was being
walked over, innermost first. -/
def unwind (g : Graph) (f : Fault) : List Task → Graph × Fault
  | [] => (g, f)
  | .finish c i :: rest =>
      let f := match g.site? c with
        | some s => f.within (s.errorSite c) i
        | none => f
      (g.modifySite c fun s => { s with busy := false }).unwind f rest
  | .leave w outer :: rest => (g.modifyWalk w fun x => { x with klass := outer }).unwind f rest
  | _ :: rest => g.unwind f rest

/-- How a run ends. -/
inductive Outcome where
  | finished
  | failed (fault : Fault)
  | exhausted
  deriving DecidableEq

/-- Does tasks until none is left, one fails, or the budget is spent. Tasks may nest to any depth: a
limit on how deep calls may go is no part of the model, and what such a limit would cut off is a run
that goes on here. -/
def run : Nat → Graph → List Task → Graph × Outcome
  | _, g, [] => (g, .finished)
  | 0, g, _ :: _ => (g, .exhausted)
  | budget + 1, g, task :: rest =>
      match g.perform task with
      | (g, .ok tasks) => run budget g (tasks ++ rest)
      | (g, .error f) =>
          let (g, f) := g.unwind f rest
          (g, .failed f)

end Graph

end TypeFlow
