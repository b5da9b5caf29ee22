import QCircuit.Draw

/-!
# Sources as streams

From a state on, a source gives one angle after another (`AngleSource.stream`), and a number of draws
leaves it in a later state (`AngleSource.after`). From there on it gives the rest of the stream
(`AngleSource.stream_after`). To take a number of angles is to take as many from the front of the stream
(`AngleSource.take_eq`).
-/

set_option autoImplicit false

namespace QCircuit.AngleSource

variable {σ : Type} (source : AngleSource σ)

/-- The state after a number of draws. -/
def after : Nat → σ → σ
  | 0, s => s
  | n + 1, s => after n (source.draw s).2

/-- The angles that are drawn from a state on, counted from zero. -/
def stream (s : σ) (k : Nat) : Binary64 := (source.draw (source.after k s)).1

theorem after_add (m n : Nat) (s : σ) :
    source.after (m + n) s = source.after n (source.after m s) := by
  induction m generalizing s with
  | zero => rw [Nat.zero_add, after]
  | succ m ih =>
      rw [Nat.succ_add]
      exact ih (source.draw s).2

/-- After some draws the stream goes on where they end. -/
theorem stream_after (m k : Nat) (s : σ) :
    source.stream (source.after m s) k = source.stream s (m + k) := by
  rw [stream, stream, after_add]

/-- The front of a stream falls into the part up to some draw and the part from there on. -/
theorem map_stream_range_add (m n : Nat) (s : σ) :
    (List.range (m + n)).map (source.stream s) =
      (List.range m).map (source.stream s) ++ (List.range n).map (source.stream (source.after m s)) := by
  rw [List.range_add, List.map_append, List.map_map]
  congr 1
  apply List.map_congr_left
  intro k _
  exact (source.stream_after m k s).symm

/-- To take angles is to take them from the front of the stream. -/
theorem take_eq (n : Nat) (s : σ) :
    source.take n s = ((List.range n).map (source.stream s), source.after n s) := by
  induction n generalizing s with
  | zero => rfl
  | succ n ih =>
      have hfront := source.map_stream_range_add 1 n s
      rw [Nat.add_comm 1 n] at hfront
      simp only [take, ih, hfront]
      rfl

end QCircuit.AngleSource
