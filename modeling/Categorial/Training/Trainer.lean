import Categorial.Beam.Violation
import Categorial.LinearModel
import Categorial.Oracle.Build
import Categorial.Training.Dataset

/-!
# Perceptron training

Training goes through a dataset example by example. An oracle gives gold sequences of actions; where
the unrestricted search prefers other actions, the model moves toward the gold and away from them.
Oracles and complete gold sequences are kept for later epochs.

How an example gets at the model is left open. If the examples are taken in turn, the model is that
of the moment and changes only by the updates of the example itself; if others are trained on at the
same time, every search may see the weights change.

* `Scoring`, `Training.Access`: scores of a search, and all that training on an example does with a
  model.
* `Training.goldOf`: the gold sequences of an example.
* `Training.trainExample`: one example.
* `Training.Trainer.runEpoch`, `Training.Trainer.train`: whole passes over a dataset, the examples
  in turn.
-/

namespace Categorial

/-- How the actions of a search are scored. The search adds and compares the scores and needs to
know nothing else about them. -/
structure Scoring where
  Value : Type
  [score : Score Value]
  own : Action → Value

attribute [instance] Scoring.score

namespace Training

/-- How training goes about. -/
structure Options (σ : Type) where
  /-- Whether the examples are taken in turn or at the same time. -/
  discipline : Discipline := .serialized
  beamWidth : Nat
  /-- The number of groups kept in a cell of the oracle's chart. -/
  limit : Option Nat
  maxSentenceLength : Nat
  packing : Packing
  epochs : Nat
  learningRate : σ
  /-- No update has a greater norm. -/
  maxUpdateNorm : σ
  earlyUpdate : Bool
  discontiguous : Bool
  useStoredGold : Bool

/-- What stays the same during training. -/
structure Setup (μ σ : Type) where
  grammar : Grammar
  lexicon : Lexicon
  model : Model μ σ
  options : Options σ

/-- A gold sequence of actions in a window, whole or only its beginning. -/
structure Gold where
  window : Span
  actions : List Action
  complete : Bool
deriving DecidableEq, Repr

/-- What happened to an example. -/
inductive Outcome where
  | tooLong
  | unreachable
  | correct
  /-- The answer is wrong, but the gold ranks above all it competed with. -/
  | noViolation
  | updated (updates pruned : Nat) (failRatio : Float)

/-- What is kept about an example: its oracle and its gold sequence. -/
structure Memo where
  oracle : Option Oracle := none
  gold : Option (List Action) := none
deriving DecidableEq, Repr, Inhabited

variable {μ σ ω : Type} [Scalar σ]

namespace Setup

/-- The scores that a model gives the actions in a sentence. -/
def scoring (s : Setup μ σ) (m : μ) (sentence : List String) : Scoring where
  Value := σ
  own := s.model.score m s.grammar.rules sentence

/-- The task of parsing a sentence, with any scores. -/
def taskOf (s : Setup μ σ) (v : Scoring) (sentence : List String) : Task v.Value where
  grammar := s.grammar
  lexicon := s.lexicon
  sentence := sentence
  score := v.own

/-- The task of parsing a sentence with the present model. -/
def task (s : Setup μ σ) (m : μ) (sentence : List String) : Task σ :=
  s.taskOf (s.scoring m sentence) sentence

/-- How oracles are built. -/
def oracleOptions (s : Setup μ σ) : Oracle.Options where
  limit := s.options.limit
  earlyUpdate := s.options.earlyUpdate
  discontiguous := s.options.discontiguous

end Setup

/-! ## Reaching the model -/

/-- What training on an example reads the model for. Filters and gold sequences are numbered. -/
inductive Stage where
  /-- Scores in the chart of the oracle. -/
  | oracle
  /-- Scores in the search under a filter. -/
  | filter (i : Nat)
  /-- Scores in the unrestricted search. -/
  | unrestricted
  /-- Scores in the search beside a gold sequence. -/
  | gold (i : Nat)
  /-- Features of the gold actions of a violation. -/
  | goldFeatures (i : Nat)
  /-- Features of the predicted actions of a violation. -/
  | predictedFeatures (i : Nat)
deriving DecidableEq, Repr

/-- How training on an example reads and updates the model. The example has a state of type `ω` of
its own; what it reads may depend on it. -/
structure Access (ω σ : Type) where
  scoring : ω → Stage → Scoring
  /-- The summed features of a sequence of actions. -/
  derivationFeatures : ω → Stage → List Action → Features σ
  /-- Move the model by a multiple of a feature vector. -/
  update : ω → Features σ → σ → ω

/-- The model of the moment, which nobody else reads or updates. -/
def Setup.access (s : Setup μ σ) (sentence : List String) : Access μ σ where
  scoring m _ := s.scoring m sentence
  derivationFeatures m _ := s.model.derivationFeatures m s.grammar.rules sentence
  update := s.model.update

/-! ## Gold sequences -/

/-- The gold sequence under a filter: the best derivation that means the target, or else the
beginning that got furthest. The filter keeps what it was shown. -/
def constrained (s : Setup μ σ) (v : Scoring) (sentence : List String) (f : GoldFilter) :
    Option Gold × GoldFilter :=
  let (p, f) := f.reset.search (s.taskOf v sentence) s.options.packing s.options.beamWidth
  match p.readings.find? fun r => f.isMet s.grammar r.category with
  | some r => (some ⟨f.window, r.best.actions, true⟩, f)
  | none => (f.earlyStates.head?.map fun actions => ⟨f.window, actions, false⟩, f)

/-- The gold sequences of an oracle. -/
def goldOfOracle (s : Setup μ σ) (look : Stage → Scoring) (sentence : List String) (o : Oracle) :
    List Gold × Oracle :=
  match o with
  | .exact f =>
    let (gold, f) := constrained s (look (.filter 0)) sentence f
    (gold.toList, .exact f)
  | .earlyUpdate f =>
    let (gold, f) := constrained s (look (.filter 0)) sentence f
    (gold.toList, .earlyUpdate f)
  | .discontiguous fs =>
    let found := fs.mapIdx fun i f => constrained s (look (.filter i)) sentence f
    (found.filterMap (·.1), .discontiguous (found.map (·.2)))
  | .unreachable => ([], .unreachable)

/-- The gold sequence to keep: the complete one of an exact oracle. -/
def goldToKeep (o : Oracle) (golds : List Gold) (kept : Option (List Action)) :
    Option (List Action) :=
  match o, golds with
  | .exact _, g :: _ => if g.complete then some g.actions else kept
  | _, _ => kept

/-- The gold sequences of an example, from what is kept or from its oracle. -/
def goldOf (s : Setup μ σ) (look : Stage → Scoring) (e : Example) (memo : Memo) :
    List Gold × Memo :=
  match if s.options.useStoredGold then memo.gold else none with
  | some actions => ([⟨⟨0, e.tokens.length⟩, actions, true⟩], memo)
  | none =>
    let oracle := match memo.oracle with
      | some o => o
      | none => Oracle.build (s.taskOf (look .oracle) e.tokens) s.oracleOptions e.target
    let (golds, oracle) := goldOfOracle s look e.tokens oracle
    (golds, ⟨some oracle, goldToKeep oracle golds memo.gold⟩)

/-! ## Learning -/

/-- The learning rate, made smaller if the update would be too great. -/
def stepSize (s : Setup μ σ) (delta : Features σ) : σ :=
  let norm := delta.norm
  let rate := s.options.learningRate
  if Scalar.isZero norm then Score.zero
  else if Score.exceeds (Scalar.mul norm rate) s.options.maxUpdateNorm then
    Scalar.div s.options.maxUpdateNorm norm
  else rate

/-- The features of the gold actions of a violation less those of the predicted ones. -/
def Access.difference (A : Access ω σ) (w : ω) (i : Nat) (v : Violation) : Features σ :=
  Features.prune
    (Features.addAll (A.derivationFeatures w (.goldFeatures i) v.gold)
      (A.derivationFeatures w (.predictedFeatures i) v.predicted) (Scalar.neg Scalar.one))

/-- The features of the gold actions less those of the predicted ones, with the model of the moment.
-/
def difference (s : Setup μ σ) (m : μ) (sentence : List String) (v : Violation) : Features σ :=
  (s.access sentence).difference m 0 v

/-- Move the model toward the gold actions of a violation of gold sequence `i`. -/
def learn (s : Setup μ σ) (A : Access ω σ) (w : ω) (i : Nat) (v : Violation) : ω :=
  let delta := A.difference w i v
  let step := stepSize s delta
  if Score.exceeds step Score.zero then A.update w delta step else w

/-- Updates made for an example so far. -/
structure Progress where
  updates : Nat := 0
  pruned : Nat := 0
  failRatio : Float := 0.0

/-- Learn from the gold sequences from number `i` on, up to the first failure. -/
def learnAll (s : Setup μ σ) (A : Access ω σ) (index : Nat) (sentence : List String) :
    (i : Nat) → List Gold → ω → Progress → ω × Except TrainError Progress
  | _, [], w, p => (w, .ok p)
  | i, g :: rest, w, p =>
    match Beam.findViolation (s.taskOf (A.scoring w (.gold i)) sentence) g.window s.options.beamWidth
      g.actions g.complete with
    | .error e => (w, .error e)
    | .ok none => learnAll s A index sentence (i + 1) rest w p
    | .ok (some v) =>
      if v.pruned && v.gold.length != v.predicted.length then
        (w, .error (.unequalLengths index v.gold.length v.predicted.length))
      else
        let ratio := Float.ofNat v.failAt / Float.ofNat (max g.actions.length 1)
        learnAll s A index sentence (i + 1) rest (learn s A w i v)
          { updates := p.updates + 1
            pruned := if v.pruned then p.pruned + 1 else p.pruned
            failRatio := p.failRatio + ratio }

/-- The outcome of learning from the gold sequences of an example. -/
def Progress.outcome (p : Progress) : Outcome :=
  if p.updates == 0 then .noViolation else .updated p.updates p.pruned p.failRatio

/-- The category means the target. -/
def meansTarget (g : Grammar) (target : Term) (c : Category) : Bool :=
  match c.sem with
  | some sem => g.underspecify sem == g.underspecify target
  | none => false

/-- The best reading of the unrestricted search means the target. -/
def alreadyCorrect (s : Setup μ σ) (v : Scoring) (e : Example) : Bool :=
  let p := Beam.parseAll (s.taskOf v e.tokens) s.options.packing s.options.beamWidth
  match p.readings with
  | best :: _ => meansTarget s.grammar e.target best.category
  | [] => false

/-- The result of an example: its state and the memo after it, and what happened. -/
structure Result (ω : Type) where
  state : ω
  memo : Memo
  outcome : Except TrainError Outcome

/-- Train on one example. -/
def trainExample (s : Setup μ σ) (A : Access ω σ) (index : Nat) (w : ω) (e : Example)
    (memo : Memo) : Result ω :=
  if s.options.maxSentenceLength < e.tokens.length then ⟨w, memo, .ok .tooLong⟩
  else
    let (golds, memo) := goldOf s (A.scoring w) e memo
    if golds.isEmpty then ⟨w, memo, .ok .unreachable⟩
    else if alreadyCorrect s (A.scoring w .unrestricted) e then ⟨w, memo, .ok .correct⟩
    else
      let (w, progress) := learnAll s A index e.tokens 0 golds w {}
      ⟨w, memo, progress.map Progress.outcome⟩

/-! ## Epochs -/

/-- Statistics of an epoch. -/
structure Stats where
  epoch : Nat
  examples : Nat := 0
  correct : Nat := 0
  updates : Nat := 0
  /-- Updates where the gold fell out of the beam. -/
  earlyUpdates : Nat := 0
  noViolation : Nat := 0
  unreachable : Nat := 0
  skipped : Nat := 0
  failRatioSum : Float := 0.0
  failRatioCount : Nat := 0

namespace Stats

/-- Count an outcome. -/
def record (st : Stats) (o : Outcome) : Stats :=
  let st := { st with examples := st.examples + 1 }
  match o with
  | .tooLong => { st with skipped := st.skipped + 1 }
  | .unreachable => { st with unreachable := st.unreachable + 1 }
  | .correct => { st with correct := st.correct + 1 }
  | .noViolation => { st with noViolation := st.noViolation + 1 }
  | .updated updates pruned ratio =>
    { st with
      updates := st.updates + updates
      earlyUpdates := st.earlyUpdates + pruned
      failRatioSum := st.failRatioSum + ratio
      failRatioCount := st.failRatioCount + updates }

/-- How far into the gold sequences updates were made, on average. -/
def averageFailRatio? (st : Stats) : Option Float :=
  if 0 < st.failRatioCount then some (st.failRatioSum / Float.ofNat st.failRatioCount) else none

/-- The share of correct examples. -/
def accuracy (st : Stats) : Float :=
  if st.examples == 0 then 0.0 else Float.ofNat st.correct / Float.ofNat st.examples

end Stats

/-- A model in training and what is kept about the examples. -/
structure Trainer (μ : Type) where
  model : μ
  filters : List (Option Oracle) := []
  gold : List (Option (List Action)) := []

/-- Go through examples in turn, up to the first failure. What is kept about later examples stays.
-/
def runExamples (s : Setup μ σ) :
    (index : Nat) → List Example → List Memo → μ → (outcomes : List Outcome) →
    μ × List Memo × Except TrainError (List Outcome)
  | index, e :: es, memo :: memos, m, outcomes =>
    let r := trainExample s (s.access e.tokens) index m e memo
    match r.outcome with
    | .error err => (r.state, r.memo :: memos, .error err)
    | .ok o =>
      let (m, memos, result) := runExamples s (index + 1) es memos r.state (outcomes ++ [o])
      (m, r.memo :: memos, result)
  | _, _, memos, m, outcomes => (m, memos, .ok outcomes)

namespace Trainer

/-- Give an empty memo a place for every example; a memo of another size was made for other data. -/
def fit (t : Trainer μ) (n : Nat) : Trainer μ × Except TrainError Unit :=
  let filters := if t.filters.isEmpty then List.replicate n none else t.filters
  let gold := if t.gold.isEmpty then List.replicate n none else t.gold
  let t := { t with filters, gold }
  if filters.length ≠ n then (t, .error (.filtersMismatch filters.length n))
  else if gold.length ≠ n then (t, .error (.goldMismatch gold.length n))
  else (t, .ok ())

/-- One pass over a dataset, the examples in turn. -/
def runEpoch (s : Setup μ σ) (t : Trainer μ) (epoch : Nat) (data : Dataset) :
    Trainer μ × Except TrainError Stats :=
  match t.fit data.length with
  | (t, .error e) => (t, .error e)
  | (t, .ok ()) =>
    let memos := t.filters.zipWith Memo.mk t.gold
    let (model, memos, result) := runExamples s 0 data memos t.model []
    ({ model, filters := memos.map (·.oracle), gold := memos.map (·.gold) },
      result.map fun outcomes => outcomes.foldl Stats.record { epoch })

/-- Passes from number `epoch` on, up to the first failure. -/
def runEpochs (s : Setup μ σ) (data : Dataset) :
    (n epoch : Nat) → Trainer μ → Trainer μ × Except TrainError (List Stats)
  | 0, _, t => (t, .ok [])
  | n + 1, epoch, t =>
    match t.runEpoch s epoch data with
    | (t, .error e) => (t, .error e)
    | (t, .ok stats) =>
      let (t, rest) := runEpochs s data n (epoch + 1) t
      (t, rest.map (stats :: ·))

/-- All passes that the options ask for. -/
def train (s : Setup μ σ) (t : Trainer μ) (data : Dataset) :
    Trainer μ × Except TrainError (List Stats) :=
  runEpochs s data s.options.epochs 1 t

end Trainer

end Training

end Categorial
