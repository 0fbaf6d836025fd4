import Std.Data.TreeMap.Basic

/-!
# Handles

Expressions, variables, dimensions, index functions and axes live in tables of a context and
are referred to by their position.  A handle carries its table in its type, and the order of
handles is the order of creation.
-/

namespace LoopBounds

/-- The tables of a context. -/
inductive Table where
  | expr
  | var
  | dim
  | fn
  | axis

/-- The letters that open the text of a handle. -/
def Table.letter : Table → String
  | expr => "e"
  | var => "v"
  | dim => "d"
  | fn => "f"
  | axis => "iv"

/-- A position in table `t`. -/
structure Handle (t : Table) where
  index : Nat
  deriving DecidableEq, Repr, Inhabited

abbrev ExprId := Handle .expr

abbrev VarId := Handle .var

abbrev DimId := Handle .dim

abbrev FunId := Handle .fn

abbrev AxisId := Handle .axis

namespace Handle

variable {t : Table}

theorem ext_index {a b : Handle t} (h : a.index = b.index) : a = b := by
  cases a; cases b; cases h; rfl

theorem index_inj {a b : Handle t} : a.index = b.index ↔ a = b :=
  ⟨ext_index, congrArg index⟩

theorem map_index_inj {as bs : List (Handle t)} (h : as.map index = bs.map index) : as = bs :=
  (List.map_inj_right fun _ _ => ext_index).1 h

instance : ToString (Handle t) := ⟨fun h => t.letter ++ toString h.index⟩

instance : Ord (Handle t) := ⟨compareOn index⟩

theorem compare_def (a b : Handle t) : compare a b = compare a.index b.index := rfl

instance : Std.TransOrd (Handle t) := inferInstanceAs (Std.TransCmp (compareOn index))

instance : Std.LawfulEqOrd (Handle t) where
  eq_of_compare := by
    intro a b h
    exact ext_index (Std.LawfulEqOrd.eq_of_compare h)

end Handle

end LoopBounds
