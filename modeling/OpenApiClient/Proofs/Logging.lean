/-
# The log is never read

Passes write to the log and never look at it: from two runs that differ in their logs only, each step
gives the same result, and leaves runs that differ in their logs only (`execute_ignoresLog`). What
was told while a document was loaded thus has no influence on the files of its client
(`executeAll_ignoresLog`).
-/

import OpenApiClient.Client.Generation
import OpenApiClient.Proofs.Ends

namespace OpenApiClient
namespace Client

open OpenApi TypeScript

variable {ε ε' α β : Type}

/-- Another log in the run it starts from changes nothing but the log in the run it leaves. -/
def IgnoresLog (m : ExceptT ε (StateM Run) α) : Prop :=
  ∀ (r : Run) (log : List LogLine), ∃ log',
    m.run.run { r with log } = ((m.run.run r).1, { (m.run.run r).2 with log := log' })

namespace IgnoresLog

variable {m : ExceptT ε (StateM Run) α}

theorem pure (a : α) : IgnoresLog (Pure.pure a : ExceptT ε (StateM Run) α) := fun _ log => ⟨log, rfl⟩

theorem throw (e : ε) : IgnoresLog (throw e : ExceptT ε (StateM Run) α) := fun _ log => ⟨log, rfl⟩

theorem mk (x : Except ε α) : IgnoresLog (ExceptT.mk (Pure.pure x)) := fun _ log => ⟨log, rfl⟩

/-- A change of the run that does not depend on its log. -/
theorem modify {f : Run → Run}
    (hf : ∀ r log, ∃ log', f { r with log } = { f r with log := log' }) :
    IgnoresLog (modify f : ExceptT ε (StateM Run) PUnit) := fun r log => by
  obtain ⟨log', h⟩ := hf r log
  refine ⟨log', ?_⟩
  change (Except.ok PUnit.unit, f { r with log }) = (Except.ok PUnit.unit, { f r with log := log' })
  rw [h]

theorem bind {f : α → ExceptT ε (StateM Run) β} (hm : IgnoresLog m) (hf : ∀ a, IgnoresLog (f a)) :
    IgnoresLog (m >>= f) := by
  intro r log
  obtain ⟨log₁, h₁⟩ := hm r log
  rw [run_bind, run_bind, h₁]
  rcases m.run.run r with ⟨e | a, t⟩
  · exact ⟨log₁, rfl⟩
  · exact hf a t log₁

/-- A step that reads the run, but not its log. -/
theorem get_bind {f : Run → ExceptT ε (StateM Run) α} (hread : ∀ r log, f { r with log } = f r)
    (hf : ∀ r, IgnoresLog (f r)) : IgnoresLog (get >>= f) := by
  intro r log
  obtain ⟨log', h⟩ := hf r r log
  refine ⟨log', ?_⟩
  change (f { r with log }).run.run { r with log } = (((f r).run.run r).1, _)
  rw [hread]
  exact h

theorem adapt {f : ε → ε'} (hm : IgnoresLog m) : IgnoresLog (m.adapt f) := by
  intro r log
  obtain ⟨log', h⟩ := hm r log
  refine ⟨log', ?_⟩
  change ((m.run.run { r with log }).1.mapError f, (m.run.run { r with log }).2) = _
  rw [h]
  rfl

theorem mapM {f : α → ExceptT ε (StateM Run) β} {xs : List α} (h : ∀ x ∈ xs, IgnoresLog (f x)) :
    IgnoresLog (xs.mapM f) := by
  induction xs with
  | nil => exact pure _
  | cons x xs ih =>
    rw [List.mapM_cons]
    refine (h x List.mem_cons_self).bind fun y => ?_
    exact (ih fun z hz => h z (List.mem_cons_of_mem _ hz)).bind fun _ => pure _

theorem forM {f : α → ExceptT ε (StateM Run) PUnit} {xs : List α} (h : ∀ x ∈ xs, IgnoresLog (f x)) :
    IgnoresLog (xs.forM f) := by
  induction xs with
  | nil => exact pure _
  | cons x xs ih =>
    change IgnoresLog (f x >>= fun _ => xs.forM f)
    exact (h x List.mem_cons_self).bind fun _ => ih fun y hy => h y (List.mem_cons_of_mem _ hy)

end IgnoresLog

namespace Action

theorem log_ignoresLog (level : Level) (target message : String) :
    IgnoresLog (Action.log level target message) :=
  .modify fun _ _ => ⟨_, rfl⟩

theorem write_ignoresLog (f : Module.File) : IgnoresLog (Action.write f) :=
  .modify fun _ log => ⟨log, rfl⟩

theorem backbone_ignoresLog (reader : Pass) : IgnoresLog (Action.backbone reader) :=
  .get_bind (fun _ _ => rfl) fun r => by
    cases r.backbone with
    | none => exact .throw _
    | some b => exact .pure b

theorem models_ignoresLog (reader : Pass) : IgnoresLog (Action.models reader) :=
  .get_bind (fun _ _ => rfl) fun r => by
    cases r.models with
    | none => exact .throw _
    | some ms => exact .pure ms

end Action

variable (j : Job)

theorem Job.note_ignoresLog (pass : Pass) (level : Level) (message : String) :
    IgnoresLog (j.note pass level message) :=
  Action.log_ignoresLog _ _ _

theorem registerTargets_ignoresLog : IgnoresLog (registerTargets j) := by
  unfold registerTargets
  dsimp only
  split
  · exact .bind (.throw _) fun _ => .bind (.modify fun _ log => ⟨log, rfl⟩) fun _ =>
      .get_bind (fun _ _ => rfl) fun _ => j.note_ignoresLog _ _ _
  · exact .bind (.modify fun _ log => ⟨log, rfl⟩) fun _ =>
      .get_bind (fun _ _ => rfl) fun _ => j.note_ignoresLog _ _ _

theorem writeMethod_ignoresLog (endpoint file : String) (call : Call) (localName : String) :
    IgnoresLog (writeMethod j endpoint file call localName) := by
  unfold writeMethod
  refine .bind (.mk _) fun arguments => .bind (.mk _) fun response => ?_
  refine .get_bind (fun _ _ => rfl) fun run => .bind (.mk _) fun p => .bind (.mk _) fun bindings => ?_
  refine .bind (Action.write_ignoresLog _) fun _ => ?_
  exact .bind (j.note_ignoresLog _ _ _) fun _ => .pure _

theorem declareAll_ignoresLog (file : String) (names : List String) :
    IgnoresLog (declareAll file names) :=
  .get_bind (fun _ _ => rfl) fun _ => .bind (Action.write_ignoresLog _) fun _ => .pure _

theorem writeEndpoint_ignoresLog (name : String) (calls : List Call) :
    IgnoresLog (writeEndpoint j name calls) := by
  have hmethods : ∀ file locals, IgnoresLog ((calls.zip locals).mapM fun e =>
      writeMethod j name file e.1 e.2) := fun file _ =>
    .mapM fun e _ => writeMethod_ignoresLog j name file e.1 e.2
  unfold writeEndpoint
  cases repeated? [] calls with
  | some c =>
    refine .bind (.throw _) fun _ => .bind (declareAll_ignoresLog _ _) fun locals => ?_
    exact (hmethods _ locals).bind fun _ => .pure _
  | none =>
    refine .bind (declareAll_ignoresLog _ _) fun locals => ?_
    exact (hmethods _ locals).bind fun _ => .pure _

theorem writeBackbone_ignoresLog : IgnoresLog (writeBackbone j) := by
  unfold writeBackbone
  refine .bind (.mapM fun e _ => writeEndpoint_ignoresLog j e.1 e.2) fun results => ?_
  exact .bind (j.note_ignoresLog _ _ _) fun _ => .modify fun _ log => ⟨log, rfl⟩

theorem writeModel_ignoresLog (component : String) : IgnoresLog (writeModel j component) := by
  unfold writeModel
  refine .get_bind (fun _ _ => rfl) fun run => .bind (.mk _) fun p => ?_
  refine .bind (Action.write_ignoresLog _) fun _ => ?_
  exact .bind (j.note_ignoresLog _ _ _) fun _ => .pure _

theorem writeNeeded_ignoresLog (transfers : Entries TransferTarget) (fuel : Nat)
    (queue : List String) (models : Entries Model) :
    IgnoresLog (writeNeeded j transfers fuel queue models) := by
  induction fuel generalizing queue models with
  | zero => exact .pure models
  | succ fuel ih =>
    unfold writeNeeded
    cases queue.dropWhile fun n => models.has n || transfers.has n with
    | nil => exact .pure models
    | cons component rest =>
      have hwrite := (writeModel_ignoresLog j component).bind fun p =>
        ih (rest ++ p.2) (models ++ [(component, p.1)])
      dsimp only
      split
      · exact .bind (.throw _) fun _ => hwrite
      · exact hwrite

theorem writeModels_ignoresLog : IgnoresLog (writeModels j) := by
  unfold writeModels
  refine .bind (Action.backbone_ignoresLog _) fun backbone => .get_bind (fun _ _ => rfl) fun run => ?_
  refine .bind (writeNeeded_ignoresLog j _ _ _ _) fun models => .bind (.mapM fun e _ => ?_) fun models => ?_
  · exact .bind (.mk _) fun _ => .pure _
  · exact .bind (j.note_ignoresLog _ _ _) fun _ => .modify fun _ log => ⟨log, rfl⟩

theorem tagLeaf_ignoresLog (models : Entries Model) (base : SchemaObject) (leaf : String) :
    IgnoresLog (tagLeaf models base leaf) := by
  unfold tagLeaf
  cases models.at? leaf with
  | none => exact .pure _
  | some m =>
    refine .get_bind (fun _ _ => rfl) fun run => ?_
    cases run.sources.at? m.file with
    | none => exact .pure _
    | some f => exact Action.write_ignoresLog _

theorem flatten_ignoresLog (models : Entries Model) (component : String) (m : Model) :
    IgnoresLog (flatten j models component m) := by
  unfold flatten
  refine .bind (.mk _) fun s => ?_
  split
  · exact .pure _
  refine .get_bind (fun _ _ => rfl) fun run => .bind (.mk _) fun leaves => ?_
  cases leaves with
  | none => exact .pure _
  | some leaves =>
    cases run.sources.at? m.file with
    | none => exact .pure _
    | some f =>
      refine .bind (.mk _) fun p => .bind (Action.write_ignoresLog _) fun _ => ?_
      exact .bind (.forM fun leaf _ => tagLeaf_ignoresLog models s leaf) fun _ => .pure _

theorem flattenUnions_ignoresLog : IgnoresLog (flattenUnions j) := by
  unfold flattenUnions
  refine .bind (Action.models_ignoresLog _) fun models => ?_
  refine .bind (.mapM fun e _ => flatten_ignoresLog j models e.1 e.2) fun _ => ?_
  exact j.note_ignoresLog _ _ _

theorem Replacement.replace_ignoresLog {κ : Type} (w : Replacement κ) (f : Module.File) (e : Endpoint)
    (m : Method) (response : Schema) (k : κ) : IgnoresLog (w.replace j f e m response k) := by
  unfold Replacement.replace
  refine .bind (.mk _) fun wrapper => .get_bind (fun _ _ => rfl) fun run => .bind (.mk _) fun p => ?_
  refine .bind (.mk _) fun f => .bind (Action.write_ignoresLog f) fun _ => ?_
  exact j.note_ignoresLog _ _ _

theorem Replacement.replaceSelected_ignoresLog {κ : Type} (w : Replacement κ) (e : Endpoint)
    (m : Method) : IgnoresLog (w.replaceSelected j e m) := by
  unfold Replacement.replaceSelected
  cases m.response with
  | none => exact .pure _
  | some response =>
    refine .get_bind (fun _ _ => rfl) fun run => ?_
    cases run.sources.at? e.file with
    | none => exact .pure _
    | some f =>
      refine .bind (.mk _) fun k => ?_
      cases k with
      | none => exact .pure _
      | some k => exact .bind (w.replace_ignoresLog j f e m response k) fun _ => .pure _

theorem Replacement.run_ignoresLog {κ : Type} (w : Replacement κ) : IgnoresLog (w.run j) := by
  unfold Replacement.run
  refine .bind (Action.backbone_ignoresLog _) fun backbone => ?_
  refine .bind (.mapM fun e _ => .mapM fun m _ => w.replaceSelected_ignoresLog j e m) fun _ => ?_
  exact j.note_ignoresLog _ _ _

/-- **No pass reads the log.** -/
theorem execute_ignoresLog (p : Pass) : IgnoresLog (p.execute j) := by
  cases p with
  | transferTypes => exact registerTargets_ignoresLog j
  | backbone => exact writeBackbone_ignoresLog j
  | model => exact writeModels_ignoresLog j
  | subtypes => exact flattenUnions_ignoresLog j
  | push => exact (subscriptions _).run_ignoresLog j
  | signals => exact .get_bind (fun _ _ => rfl) fun r => (signalConstructions r.models).run_ignoresLog j

/-- **No run reads the log.** -/
theorem executeAll_ignoresLog (passes : List Pass) : IgnoresLog (executeAll j passes) :=
  .forM fun p _ => .bind (.modify fun _ _ => ⟨_, rfl⟩) fun _ => (execute_ignoresLog j p).adapt

end Client
end OpenApiClient
