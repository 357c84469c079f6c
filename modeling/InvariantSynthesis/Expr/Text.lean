import InvariantSynthesis.Expr.Basic

namespace InvariantSynthesis.Expr

def isAtom : Expr → Bool
  | .bool _ | .int _ | .var _ _ | .ite _ _ _ => true
  | _ => false

def wrap (e : Expr) (text : String) : String :=
  if e.isAtom then text else "(" ++ text ++ ")"

mutual

def text : Expr → String
  | .bool b => if b then "true" else "false"
  | .int k => toString k
  | .var n _ => n
  | .not a => "!" ++ wrap a (text a)
  | .and args => " && ".intercalate (operandTexts args)
  | .or args => " || ".intercalate (operandTexts args)
  | .implies a b => wrap a (text a) ++ " ==> " ++ wrap b (text b)
  | .neg a => "-" ++ wrap a (text a)
  | .add args => " + ".intercalate (operandTexts args)
  | .sub a b => wrap a (text a) ++ " - " ++ wrap b (text b)
  | .mul k a => toString k ++ "*" ++ wrap a (text a)
  | .eq a b => wrap a (text a) ++ " == " ++ wrap b (text b)
  | .le a b => wrap a (text a) ++ " <= " ++ wrap b (text b)
  | .lt a b => wrap a (text a) ++ " < " ++ wrap b (text b)
  | .ite c a b => "ite(" ++ text c ++ ", " ++ text a ++ ", " ++ text b ++ ")"

def operandTexts : List Expr → List String
  | [] => []
  | a :: as => wrap a (text a) :: operandTexts as

end

end InvariantSynthesis.Expr
