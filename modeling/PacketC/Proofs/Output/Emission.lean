import Mathlib.Data.List.Induction
import Mathlib.Data.List.Perm.Basic
import PacketC.Output.Emission

/-! The frames of code around a statement, whatever is done with them and in whatever order. They
are a stack of logs: a frame that is taken off hands back all that was put behind the body while it
was the innermost one, and all that was put in front of it without what was there already. Nothing
is lost and nothing comes back twice. -/

namespace PacketC.Emission

inductive Op where
  | prepend (code : String)
  | append (code : String)
  | push
  | pop
  | drain

namespace Op

/-- The code that is put behind the body. -/
def appended? : Op → Option String
  | append code => some code
  | _ => none

/-- How many frames there are afterwards. -/
def depth : Op → Nat → Nat
  | push, d => d + 1
  | pop, d => max 1 (d - 1)
  | drain, _ => 1
  | _, d => d

end Op

/-- One operation, with the code that it hands back. -/
def perform (e : Emission) : Op → Emission × List Frame
  | .prepend code => (e.prepend code, [])
  | .append code => (e.append code, [])
  | .push => (e.push, [])
  | .pop => (e.pop.2, [e.pop.1])
  | .drain => (e.drain.2, [e.drain.1])

/-- Operations one after the other, with all that they hand back. -/
def run (ops : List Op) : Emission × List Frame :=
  ops.foldl (fun r op => ((r.1.perform op).1, r.2 ++ (r.1.perform op).2)) (empty, [])

/-- All frames, the innermost first. -/
def frames (e : Emission) : List Frame := e.current :: e.outer

/-! ### Logs -/

/-- All that was put around the body while the frame was the innermost one. -/
structure Log where
  prepended : List String
  appended : List String

namespace Log

def empty : Log := ⟨[], []⟩

/-- The code of the frame: what stands in front of the body stands there once, in the place where it
was put first. -/
def frame (l : Log) : Frame := ⟨l.prepended.eraseDups, l.appended⟩

/-- The code of several frames, one after the other. -/
def gathered (logs : List Log) : Frame :=
  ⟨logs.flatMap fun l => l.prepended.eraseDups, logs.flatMap appended⟩

/-- One operation on a stack of logs, with the logs that it takes off, the outermost first. -/
def perform (stack : List Log) : Op → List Log × List (List Log)
  | .prepend code => (stack.modifyHead fun l => { l with prepended := l.prepended ++ [code] }, [])
  | .append code => (stack.modifyHead fun l => { l with appended := l.appended ++ [code] }, [])
  | .push => (empty :: stack, [])
  | .pop => (if stack.tail.isEmpty then [empty] else stack.tail, [stack.take 1])
  | .drain => ([empty], [stack.reverse])

def run (ops : List Op) : List Log × List (List Log) :=
  ops.foldl (fun r op => ((perform r.1 op).1, r.2 ++ (perform r.1 op).2)) ([empty], [])

end Log

/-! ### One operation -/

variable {e : Emission} {l : Log} {logs : List Log}

theorem frames_prepend (code : String) (h : e.current = l.frame) :
    (e.prepend code).frames =
      Log.frame { l with prepended := l.prepended ++ [code] } :: e.outer := by
  have hpre : e.current.pre = l.prepended.eraseDups := by rw [h]; rfl
  simp only [frames, Log.frame, List.eraseDups_append]
  unfold prepend
  split
  · rename_i hcode
    rw [hpre, List.contains_iff_mem, List.mem_eraseDups] at hcode
    simp [List.removeAll, hcode, h, Log.frame]
  · rename_i hcode
    rw [hpre, List.contains_iff_mem, List.mem_eraseDups] at hcode
    simp [List.removeAll, hcode, h, Log.frame, List.eraseDups_cons]

theorem gathered_map_frame (logs : List Log) :
    Log.gathered logs = ⟨(logs.map Log.frame).flatMap Frame.pre,
      (logs.map Log.frame).flatMap Frame.post⟩ := by
  rw [List.flatMap_map, List.flatMap_map]
  rfl

/-- Frames that are those of a stack of logs stay so, and hand back what the logs say. -/
theorem perform_logs (h : e.frames = logs.map Log.frame) (op : Op) :
    (e.perform op).1.frames = (Log.perform logs op).1.map Log.frame ∧
      (e.perform op).2 = (Log.perform logs op).2.map Log.gathered := by
  cases logs with
  | nil => cases h
  | cons l logs =>
    obtain ⟨hcurrent, houter⟩ := List.cons.inj h
    cases op with
    | prepend code => exact ⟨by rw [perform, frames_prepend code hcurrent, houter]; rfl, rfl⟩
    | append code =>
      refine ⟨?_, rfl⟩
      simp only [perform, frames, append, hcurrent, houter]
      rfl
    | push => exact ⟨congrArg (Frame.empty :: ·) h, rfl⟩
    | pop =>
      have hpop : e.pop.1 = Log.gathered [l] := by
        rw [gathered_map_frame]
        unfold pop
        split <;> simp [hcurrent]
      refine ⟨?_, by rw [perform, hpop]; rfl⟩
      cases logs with
      | nil => simp only [perform, pop, houter]; rfl
      | cons m logs => simp only [perform, pop, houter]; rfl
    | drain =>
      refine ⟨rfl, ?_⟩
      have hall : e.gathered = Log.gathered (l :: logs).reverse := by
        rw [gathered_map_frame, List.map_reverse, ← h]
        rfl
      simp only [perform, drain, hall]
      rfl

/-- What is handed back and what is left is what was there and what is put there. -/
theorem perform_post (e : Emission) (op : Op) :
    ((e.perform op).2.flatMap Frame.post ++ (e.perform op).1.frames.flatMap Frame.post).Perm
      (e.frames.flatMap Frame.post ++ op.appended?.toList) := by
  cases op with
  | prepend code =>
    simp only [perform, frames, prepend]
    split <;> simp [Op.appended?]
  | append code =>
    have hcode : (e.outer.flatMap Frame.post ++ [code]).Perm
        ([code] ++ e.outer.flatMap Frame.post) := List.perm_append_comm
    simpa [perform, frames, append, Op.appended?] using hcode.symm.append_left e.current.post
  | push => simp [perform, frames, push, Frame.empty, Op.appended?]
  | pop =>
    simp only [perform, frames, pop]
    split <;> simp_all [empty, Frame.empty, Op.appended?]
  | drain =>
    have hall : ((e.current :: e.outer).reverse.flatMap Frame.post).Perm
        ((e.current :: e.outer).flatMap Frame.post) :=
      (List.reverse_perm _).flatMap_right _
    simpa [perform, frames, drain, gathered, empty, Frame.empty, Op.appended?] using hall

theorem depth_perform (e : Emission) (op : Op) : (e.perform op).1.depth = op.depth e.depth := by
  cases op with
  | prepend code =>
    simp only [perform, prepend]
    split <;> rfl
  | append code => rfl
  | push => rfl
  | pop =>
    simp only [perform, pop, depth, Op.depth]
    split <;> simp_all [empty]
  | drain => rfl

/-! ### Any number of operations -/

theorem run_append (ops : List Op) (op : Op) :
    run (ops ++ [op]) =
      (((run ops).1.perform op).1, (run ops).2 ++ ((run ops).1.perform op).2) := by
  rw [run, List.foldl_append]
  rfl

theorem Log.run_append (ops : List Op) (op : Op) :
    Log.run (ops ++ [op]) =
      ((perform (Log.run ops).1 op).1, (Log.run ops).2 ++ (perform (Log.run ops).1 op).2) := by
  rw [Log.run, List.foldl_append]
  rfl

theorem run_logs (ops : List Op) :
    (run ops).1.frames = (Log.run ops).1.map Log.frame ∧
      (run ops).2 = (Log.run ops).2.map Log.gathered := by
  induction ops using List.reverseRecOn with
  | nil => exact ⟨rfl, rfl⟩
  | append_singleton ops op ih =>
    obtain ⟨hframes, hreturned⟩ := perform_logs ih.1 op
    rw [run_append, Log.run_append, List.map_append, hreturned, ih.2]
    exact ⟨hframes, rfl⟩

theorem run_post (ops : List Op) :
    ((run ops).2.flatMap Frame.post ++ (run ops).1.frames.flatMap Frame.post).Perm
      (ops.filterMap Op.appended?) := by
  induction ops using List.reverseRecOn with
  | nil => exact .nil
  | append_singleton ops op ih =>
    have hop : [op].filterMap Op.appended? = op.appended?.toList := by
      cases op <;> rfl
    rw [run_append, List.flatMap_append, List.append_assoc, List.filterMap_append, hop]
    refine (List.Perm.append_left _ (perform_post _ op)).trans ?_
    rw [← List.append_assoc]
    exact ih.append_right _

/-- Whatever is done with new frames: they are a stack of logs, which hands back the logs that are
taken off; each piece behind the body comes back once or is still there; there is always a frame,
and all frames but one are gone when they are drained. -/
theorem run_keeps_account (ops : List Op) :
    (run ops).1.frames = (Log.run ops).1.map Log.frame ∧
      (run ops).2 = (Log.run ops).2.map Log.gathered ∧
      ((run ops).2.flatMap Frame.post ++ (run ops).1.frames.flatMap Frame.post).Perm
        (ops.filterMap Op.appended?) ∧
      1 ≤ (run ops).1.depth ∧
      ∀ op, (run (ops ++ [op])).1.depth = op.depth (run ops).1.depth := by
  obtain ⟨hframes, hreturned⟩ := run_logs ops
  refine ⟨hframes, hreturned, run_post ops, Nat.succ_pos _, fun op => ?_⟩
  rw [run_append]
  exact depth_perform _ op

end PacketC.Emission
