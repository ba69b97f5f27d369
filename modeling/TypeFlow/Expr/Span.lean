import TypeFlow.Expr.Basic

/-! The range of spots that a part of a program covers. Spot zero also stands for "nothing
here", so a part that ends at zero leaves the end to the part before it. -/

namespace TypeFlow

namespace Expr

/-- The first spot, unless it is zero. -/
def orSpot (spot other : Int) : Int := if spot = 0 then other else spot

/-- The leftmost spot. An empty block has none. -/
def left : Expr → Int
  | .literal l => l.spot
  | .place p => p.name.spot
  | .const n => n.spot
  | .assign t _ => t.name.spot
  | .block [] => 0
  | .block (e :: _) => e.left
  | .loop c _ => c.left
  | .cond c _ _ => c.left
  | .call (some r) _ _ _ => r.left
  | .call none n _ _ => n.spot
  | .method n _ _ => n.spot
  | .klass n _ => n.spot

mutual
/-- The rightmost spot. A branch without spots of its own ends where the test ends. -/
def right : Expr → Int
  | .literal l => l.spot
  | .place p => p.name.spot
  | .const n => n.spot
  | .assign _ v => v.right
  | .block es => rightOfLast 0 es
  | .loop c b => orSpot b.right c.right
  | .cond c t f => orSpot (rightOfElse t.right f) c.right
  | .call _ n as _ => rightOfLast n.spot as
  | .method n _ b => orSpot b.right n.spot
  | .klass n b => orSpot b.right n.spot

/-- The rightmost spot of the last of several trees, or the given one if there are none. -/
def rightOfLast (spot : Int) : List Expr → Int
  | [] => spot
  | [e] => e.right
  | _ :: e :: es => rightOfLast spot (e :: es)

/-- The rightmost spot of an `else` part that counts, or the given one. -/
def rightOfElse (spot : Int) : Option Expr → Int
  | none | some (.block []) => spot
  | some e => e.right
end

/-- The leftmost and the rightmost spot. -/
def span (e : Expr) : Int × Int := (e.left, e.right)

end Expr

end TypeFlow
