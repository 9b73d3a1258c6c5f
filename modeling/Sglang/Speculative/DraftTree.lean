import Mathlib.Data.List.Nodup

/-!
# Draft trees and their greedy verification

The draft tokens of a request form a tree, given by two arrays: the first child of every node
and its next sibling. Verification walks down from the root as long as a child carries the
token that the target model predicts.
-/

namespace Sglang.Speculative

/-- A row of siblings: the first node, what is below it, and its further siblings. -/
inductive DraftTree
  | leaf
  | node (pos : ℕ) (child sibling : DraftTree)

/-- `retrive_next_token` and `retrive_next_sibling` of a request, with `none` for -1, and its
draft tokens. -/
structure Links where
  nextToken : ℕ → Option ℕ
  nextSibling : ℕ → Option ℕ
  draftToken : ℕ → ℕ

namespace DraftTree

def root? : DraftTree → Option ℕ
  | leaf => none
  | node pos _ _ => some pos

@[simp]
theorem root?_node (pos : ℕ) (child sibling : DraftTree) :
    (node pos child sibling).root? = some pos := rfl

def size : DraftTree → ℕ
  | leaf => 0
  | node _ child sibling => child.size + sibling.size + 1

def positions : DraftTree → List ℕ
  | leaf => []
  | node pos child sibling => pos :: (child.positions ++ sibling.positions)

/-- The arrays describe the tree. -/
def Linked (L : Links) : DraftTree → Prop
  | leaf => True
  | node pos child sibling => L.nextToken pos = child.root? ∧ L.nextSibling pos = sibling.root? ∧
      child.Linked L ∧ sibling.Linked L

/-- The first of the siblings that carries the token, and what is below it. -/
def find? (L : Links) (token : ℕ) : DraftTree → Option (ℕ × DraftTree)
  | leaf => none
  | node pos child sibling =>
    if L.draftToken pos = token then some (pos, child) else sibling.find? L token

end DraftTree

namespace Links

variable (L : Links) (targetPredict : ℕ → ℕ)

end Links

namespace DraftTree

variable {L : Links} {T : DraftTree} {token fuel : ℕ}

end DraftTree

end Sglang.Speculative
