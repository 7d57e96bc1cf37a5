/-!
Complex numbers over doubles.
-/

namespace QCircuit

structure Complex where
  re : Float
  im : Float
  deriving BEq, Repr, Inhabited

namespace Complex

instance : Zero Complex := ⟨⟨0.0, 0.0⟩⟩
instance : One Complex := ⟨⟨1.0, 0.0⟩⟩
instance : Add Complex := ⟨fun a b => ⟨a.re + b.re, a.im + b.im⟩⟩
instance : Neg Complex := ⟨fun a => ⟨-a.re, -a.im⟩⟩
instance : Mul Complex := ⟨fun a b => ⟨a.re * b.re - a.im * b.im, a.re * b.im + a.im * b.re⟩⟩

def i : Complex := ⟨0.0, 1.0⟩

def ofReal (x : Float) : Complex := ⟨x, 0.0⟩

/-- The number of modulus one at an angle in radians. -/
def unit (angle : Float) : Complex := ⟨angle.cos, angle.sin⟩

def scale (a : Complex) (x : Float) : Complex := ⟨a.re * x, a.im * x⟩

def normSq (a : Complex) : Float := a.re * a.re + a.im * a.im

end Complex
end QCircuit
