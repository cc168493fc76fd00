import PropertyIndex.Proofs.Index.Closed

/-!
# Commands keep the order of names

* `writeClosed_sorted`   every elementary write keeps the order of names;
* `Index.apply_sorted`   so does every step of an update;
* `Command.run_sorted`   and every command.
-/

namespace PropertyIndex

variable {σ : Type} {t : Node σ}

open Node

theorem Node.Sorted.pruneEntry (h : t.Sorted) (m : σ) (key : String) (segments : List String) :
    (t.pruneEntry m key segments).1.Sorted := by
  cases hc : t.child? key with
  | none =>
    unfold Node.pruneEntry
    rw [hc]
    exact h
  | some c => exact (put_pruneEntry m segments hc).sorted h ((h.child? hc).prunePath m segments)

theorem writeClosed_sorted (m : σ) :
    WriteClosed m fun t t' : Node σ => t.Sorted → t'.Sorted where
  refl _ h := h
  trans h h' ht := h' (h ht)
  setProp name v _ h := h.setProp name v
  removeProp name _ h := h.removeProp name
  removeChild name _ h := h.removeChild m name
  grow path _ hf _ h := h.grow m path hf
  edit path _ hf _ h := h.edit m path hf
  pruneEntry key segments _ h := h.pruneEntry m key segments

theorem Index.apply_sorted (i : Index σ) (h : t.Sorted) (m : σ) (path : String) (c : Change) :
    (i.apply m t path c).tree.Sorted := (writeClosed_sorted m).apply i t path c h

/-- every command keeps the order of names, whether it succeeds or fails -/
theorem Command.run_sorted (h : t.Sorted) (m : σ) (c : Command σ) : (c.run m t).tree.Sorted :=
  (writeClosed_sorted m).run t c h

end PropertyIndex
