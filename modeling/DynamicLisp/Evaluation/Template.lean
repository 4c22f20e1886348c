import DynamicLisp.Reader.Error

/-! Templates: text with expressions between `${` and `}`. -/
namespace DynamicLisp

inductive Section
  | literal (text : List Char)
  | expression (text : List Char)
deriving DecidableEq, Inhabited

namespace Template

/-- Cuts a text at the first closing brace, which belongs to neither part. -/
def closeBrace : List Char → Option (List Char × List Char)
  | [] => none
  | '\x7d' :: cs => some ([], cs)
  | c :: cs => (closeBrace cs).map fun (text, rest) => (c :: text, rest)

/-- Puts a character in front of the sections that follow it. -/
def consLiteral (c : Char) : List Section → List Section
  | .literal text :: ss => .literal (c :: text) :: ss
  | ss => .literal [c] :: ss

theorem length_closeBrace_lt {cs text rest : List Char}
    (h : closeBrace cs = some (text, rest)) : rest.length < cs.length := by
  fun_induction closeBrace cs generalizing text rest with
  | case1 => simp at h
  | case2 cs => simp_all
  | case3 c cs _ ih =>
    obtain ⟨⟨b, r⟩, hr, he⟩ := Option.map_eq_some_iff.1 h
    have := ih hr
    simp_all
    omega

/-- The sections of a template. An expression ends at the first closing brace. -/
def split : List Char → Except ReadError (List Section)
  | [] => .ok []
  | '$' :: '\x7b' :: cs =>
    match _h : closeBrace cs with
    | none => .error .unclosedInterpolation
    | some (text, rest) => (split rest).map (.expression text :: ·)
  | c :: cs => (split cs).map (consLiteral c)
termination_by cs => cs.length
decreasing_by
  all_goals simp_wf
  have := length_closeBrace_lt ‹_›
  omega

end Template

end DynamicLisp
