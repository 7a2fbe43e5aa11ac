import MoCoLinux.Kload.Frames
import MoCoLinux.Kload.Loader

/-!
# Guest RAM in host memory

The blocks of `kload_block_alloc` hold guest RAM from pseudo address zero on. What one byte of it is in the host's
address space does not depend on `kload_last_hit`.
-/

namespace MoCoLinux

def Block.Holds (b : Block) (pa : Nat) : Prop := b.pseudoBase ≤ pa ∧ pa < b.pseudoBase + b.bytes

instance (b : Block) (pa : Nat) : Decidable (b.Holds pa) := inferInstanceAs (Decidable (_ ∧ _))

def Block.Apart (b c : Block) : Prop := b.va + b.bytes ≤ c.va ∨ c.va + c.bytes ≤ b.va

namespace Kload

def hostVa (block : List Block) (pa : Nat) : Nat :=
  match block.find? fun b => decide (b.Holds pa) with
  | some b => b.va + (pa - b.pseudoBase)
  | none => 0

/-- What the host promises of the memory of a block, and the most its callers ask for. -/
def ApartHost (k : Kload) : LoaderOp → Prop
  | .blockAlloc host bytes => bytes ≤ chunkBytes ∧ ∀ pages, host = some pages → pages.va ≠ 0 ∧
      ∀ b ∈ k.block, b.Apart ⟨pages.va, k.backedPages <<< 12, k.blockPages bytes <<< 12, pages.mdl⟩
  | _ => True

/-- The loader of a running guest: its blocks were allocated one by one since `kload_translation_alloc`, whatever the
other statics hold. -/
def Populated (k : Kload) : Prop :=
  ∃ k₀, Runs.Reach (fun k => LoaderStart k ∧ k.block = []) (fun k op k' => ApartHost k op ∧ LoaderStep k op k') k₀ ∧
    k.block = k₀.block ∧ k.backedPages = k₀.backedPages

end Kload

end MoCoLinux
