import AlgoBox.Node.Grammar
import AlgoBox.Proofs.Lookahead

/-!
# Progress

No production moves backwards. Each is put together from productions that do
not, so the instances are found by following its definition; only repetitions
take an induction on their bound.
-/

namespace AlgoBox.Grammar

open Reader

variable {β γ : Type}

instance (p : ReadM β) [Shrinks p] : Shrinks (discard p) := by
  rw [discard_eq]
  infer_instance

instance : Shrinks here := by
  unfold here
  infer_instance

instance (start : Nat) : Shrinks (spanFrom start) := by
  unfold spanFrom
  infer_instance

instance (text : String) : Shrinks (word? text) := by
  unfold word?
  infer_instance

instance (texts : List String) : Shrinks (wordOf? texts) := by
  unfold wordOf?
  infer_instance

instance (text : String) : Shrinks (closingWord text) := by
  unfold closingWord
  infer_instance

instance : Shrinks openBrace := by
  unfold openBrace
  infer_instance

instance : Shrinks closeBrace := by
  unfold closeBrace
  infer_instance

instance : Shrinks bracedName := by
  unfold bracedName
  infer_instance

/-! ## Phrases -/

instance (forms : List (Symbol.Kind × Wanted × (String → Leaf))) : Shrinks (leafOf? forms) := by
  induction forms with
  | nil => exact .pure none
  | cons form rest ih =>
      unfold leafOf?
      exact .bind_option ih inferInstance

instance : Shrinks leaf? := by
  unfold leaf?
  exact @Shrinks.bind _ _ _ _ _ fun start => .bind_option inferInstance inferInstance

instance (bound : Nat) : Shrinks (items bound) := by
  induction bound with
  | zero => exact .pure []
  | succ bound ih =>
      unfold items
      refine .bind_option ?_ inferInstance
      exact .bind_option inferInstance inferInstance

instance (bound : Nat) : Shrinks (phrase bound) := by
  unfold phrase
  infer_instance

instance (bound : Nat) : Shrinks (bracedPhrase bound) := by
  unfold bracedPhrase
  infer_instance

/-! ## Statements -/

instance (words : List String) (bound : Nat) : Shrinks (command? words bound) := by
  unfold command?
  exact @Shrinks.bind _ _ _ _ _ fun start => .bind_option inferInstance inferInstance

instance (bound : Nat) : Shrinks (comment? bound) := by
  unfold comment?
  infer_instance

instance (bound : Nat) : Shrinks (call? bound) := by
  unfold call?
  infer_instance

section Bodies

variable (bound : Nat) (body : ReadM (Option (Node Span))) [Shrinks body]

instance (start : Nat) : Shrinks (arm bound body start) := by
  unfold arm
  infer_instance

instance (read : Nat → ReadM (Branch Span)) [∀ start, Shrinks (read start)] :
    Shrinks (laterArms read bound) := by
  induction bound with
  | zero => exact .pure []
  | succ bound ih =>
      unfold laterArms
      infer_instance

instance : Shrinks (conditional? bound body) := by
  unfold conditional?
  infer_instance

instance : Shrinks (loop? bound body) := by
  unfold loop?
  exact @Shrinks.bind _ _ _ _ _ fun start => .bind_option inferInstance inferInstance

instance : Shrinks (function? bound body) := by
  unfold function?
  exact @Shrinks.bind _ _ _ _ _ fun start => .bind_option inferInstance inferInstance

instance (first second : ReadM (Option (Node Span))) [Shrinks first] [Shrinks second] :
    Shrinks (orElse? first second) := by
  unfold orElse?
  exact .bind_option inferInstance inferInstance

instance : Shrinks (statement? bound body) := by
  unfold statement?
  infer_instance

end Bodies

instance (read : ReadM (List (Node Span))) [Shrinks read] : Shrinks (blockOf? read) := by
  unfold blockOf?
  refine @Shrinks.bind _ _ _ _ _ fun start => @Shrinks.bind _ _ _ _ _ ?_
  exact Shrinks.list inferInstance fun _ _ => inferInstance

instance (bound : Nat) : Shrinks (statements bound) := by
  induction bound with
  | zero => exact .pure []
  | succ bound ih =>
      unfold statements
      exact .bind_option inferInstance inferInstance

instance (bound : Nat) : Shrinks (block? bound) := by
  unfold block?
  infer_instance

/-! ## Environments -/

instance : Shrinks environment? := by
  unfold environment?
  infer_instance

instance (name : String) : Shrinks (closeEnvironment name) := by
  unfold closeEnvironment
  infer_instance

instance (bound : Nat) : Shrinks (sections bound) := by
  induction bound with
  | zero => exact .pure []
  | succ bound ih =>
      unfold sections
      exact .bind_option inferInstance inferInstance

instance (bound start : Nat) : Shrinks (algorithmic bound start) := by
  unfold algorithmic
  infer_instance

instance (bound : Nat) : Shrinks (caption? bound) := by
  unfold caption?
  infer_instance

instance (bound : Nat) : Shrinks (parts bound) := by
  induction bound with
  | zero => exact .pure []
  | succ bound ih =>
      unfold parts
      refine .bind_option ?_ inferInstance
      exact .bind_option inferInstance inferInstance

instance (bound start : Nat) : Shrinks (algorithm bound start) := by
  unfold algorithm
  infer_instance

instance (bound : Nat) : Shrinks (environments bound) := by
  induction bound with
  | zero => exact .pure []
  | succ bound ih =>
      unfold environments
      exact .bind_option inferInstance (.pair fun name start => inferInstance)

instance (bound : Nat) : Shrinks (document bound) := by
  unfold document
  infer_instance

end AlgoBox.Grammar
