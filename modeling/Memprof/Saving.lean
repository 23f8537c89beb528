import Memprof.Descendants

/-! # `profile.c`: saved profiles

What is written for each function of a profile.  A line is what `fprintf` is given for it.
The shares of `n_bytes` are computed as `double`s and left out, and so is `???`: every node
has a symbol.
-/

namespace Memprof

/-- `%d` of a `guint`: its bits are read as an `int`. -/
def formatInt (n : UInt32) : ℤ := n.toBitVec.toInt

/-- `"    %10d %10d %3d %% %s\n"` -/
structure OutputLine where
  self : ℤ
  total : ℤ
  percent : ℤ
  name : String
deriving DecidableEq, Repr

/-- `"%10d %10d %5.2f %% %s\n"` and what follows it. -/
structure OutputDetails where
  self : ℤ
  total : ℤ
  name : String
  callers : List OutputLine
  descendants : List OutputLine

/-- The loop bodies of `output_callers` and `output_descendants`: a share of `whole`, if it
is a percent at least. -/
def outputShare (whole self total : UInt32) (name : String) : Except Fault (Option OutputLine) :=
  if whole = 0 then .error .divisionByZero
  else
    let percent := total * 100 / whole
    if percent < 1 then .ok none
    else .ok (some {
      self := formatInt self
      total := formatInt total
      percent := formatInt percent
      name := name })

section

variable {σ : Type} [DecidableEq σ] (name : σ → String)

def createSortedProfileFuncs (funcs : List ProfileFunc) : List ProfileFunc :=
  funcs.mergeSort fun a b => decide (b.total ≤ a.total)

def createSortedDescendantTreeNodes (nodes : List (ProfileDescendantTreeNode σ)) : List (ProfileDescendantTreeNode σ) :=
  nodes.mergeSort fun a b => decide (b.total ≤ a.total)

def callerName (forest : Library.Forest (ProfileNode σ)) (caller : ProfileFunc) : Except Fault String :=
  match caller.node with
  | none => .ok "<spontaneous>"
  | some i => do
    let node ← fetch forest i
    .ok (name node.symbol)

def outputCaller (profile : Profile σ) (func caller : ProfileFunc) : Except Fault (Option OutputLine) := do
  let text ← callerName name profile.forest caller
  outputShare func.total caller.self caller.total text

def outputCallers (profile : Profile σ) (func : ProfileFunc) : Except Fault (List OutputLine) := do
  let profileCallers ← profileFuncCreateCallerList profile func
  let lines ← (createSortedProfileFuncs profileCallers).mapM (outputCaller name profile func)
  .ok lines.reduceOption

def outputDescendant (node child : ProfileDescendantTreeNode σ) : Except Fault (Option OutputLine) :=
  outputShare node.total child.self child.total (name child.symbol)

def outputDescendants (profile : Profile σ) (func : ProfileFunc) : Except Fault (List OutputLine) := do
  let descendantTree ← profileFuncCreateDescendantTree profile func
  match descendantTree.roots with
  -- `pdata` of an array to which nothing was added is `NULL`.
  | [] => .error .nullDereference
  | i :: _ => do
    let node ← fetch descendantTree i
    let children ← node.children.mapM (fetch descendantTree)
    let lines ← (createSortedDescendantTreeNodes children).mapM (outputDescendant name node)
    .ok lines.reduceOption

/-- The loop body of `output_profile_details`. -/
def outputProfileFunc (profile : Profile σ) (func : ProfileFunc) : Except Fault OutputDetails := do
  match func.node with
  | none => .error .nullDereference
  | some i => do
    let node ← fetch profile.forest i
    let callers ← outputCallers name profile func
    let descendants ← outputDescendants name profile func
    .ok {
      self := formatInt func.self
      total := formatInt func.total
      name := name node.symbol
      callers := callers
      descendants := descendants }

/-- The details of a profile that is written to a file. -/
def profileWrite (profile : Profile σ) : Except Fault (List OutputDetails) :=
  (createSortedProfileFuncs profile.functions).mapM (outputProfileFunc name profile)

end

end Memprof
