import FormulaScript.Random
import Mathlib.Algebra.Ring.Parity
import Mathlib.Data.List.DropRight

/-!
# Normal deviates in pairs

From each start of a source on, its generator draws one sequence of numbers. Whatever it is asked
for in between, every second normal deviate completes the pair that the one before has begun, and
draws nothing. So the number of draws follows from the numbers of requests, and a new seed leaves
nothing of what came before it.
-/

namespace FormulaScript.Random

/-! ## Draws -/

/-- The generator after some draws. -/
def Generator.after (generator : Generator) (count : Nat) : Generator := step^[count] generator

/-- The number that a generator draws after some draws. -/
def Generator.drawn (generator : Generator) (count : Nat) : Float :=
  (generator.after count).uniform.1

/-- The pair of normal deviates that a generator makes after some draws, of the next two. -/
def Generator.pair (generator : Generator) (count : Nat) : Float × Float :=
  normalPair (generator.drawn count) (generator.drawn (count + 1))

theorem Generator.after_succ (generator : Generator) (count : Nat) :
    generator.after (count + 1) = (generator.after count).step :=
  Function.iterate_succ_apply' step count generator

theorem Generator.after_add (generator : Generator) (count more : Nat) :
    generator.after (count + more) = (generator.after count).after more := by
  rw [after, Nat.add_comm, Function.iterate_add_apply]
  rfl

theorem Generator.pair_after (generator : Generator) (count more : Nat) :
    (generator.after count).pair more = generator.pair (count + more) := by
  simp only [pair, drawn, ← after_add, Nat.add_assoc]

/-- By the method of Box and Muller the first draw gives a radius and the second one an angle. -/
theorem Generator.pair_eq (generator : Generator) (count : Nat) :
    let radius := Float.sqrt (-2.0 * Float.log (1.0 - generator.drawn count))
    let angle := 2.0 * 3.141592653589793 * generator.drawn (count + 1)
    generator.pair count = (radius * Float.sin angle, radius * Float.cos angle) := rfl

theorem uniform_fst (random : Random) : random.uniform.1 = random.generator.uniform.1 := rfl

theorem generator_uniform (random : Random) :
    random.uniform.2.generator = random.generator.step := by
  obtain ⟨_, generator, _⟩ := random
  rfl

-- The constructor's own argument: against a projection the generators are compared, step by step.
theorem spare_uniform (random : Random) : random.uniform.2.spare = random.spare := by
  obtain ⟨_, _, spare⟩ := random
  change _ = spare
  rfl

/-- A normal deviate that is kept is given away without a draw. -/
theorem normal_of_spare {random : Random} (h : random.spare = some value) :
    random.normal = (value, { random with spare := none }) := by
  rw [normal, h]

/-- Without one that is kept, two draws make a pair, and the second of it is kept. -/
theorem normal_of_none {random : Random} (h : random.spare = none) :
    random.normal = ((random.generator.pair 0).1,
      { random with
        generator := random.generator.after 2, spare := some (random.generator.pair 0).2 }) := by
  rw [normal, h]
  rfl

/-! ## Requests -/

/-- What a source is asked for. -/
inductive Request
  | uniform
  | normal
  | reseed (seed : UInt32)
deriving DecidableEq

/-- Whether a request gives the source a new seed. -/
def Request.isReseed : Request → Bool
  | reseed _ => true
  | _ => false

/-- The answer to a request, none to a new seed, and the source that it leaves. -/
def answer (random : Random) : Request → Option Float × Random
  | .uniform => (some random.uniform.1, random.uniform.2)
  | .normal => (some random.normal.1, random.normal.2)
  | .reseed seed => (none, random.reseed seed)

/-- The source that requests leave. -/
def after (random : Random) (requests : List Request) : Random :=
  requests.foldl (fun random request => (random.answer request).2) random

/-- The answers to requests. -/
def answers (random : Random) : List Request → List (Option Float)
  | [] => []
  | request :: requests =>
    (random.answer request).1 :: answers (random.answer request).2 requests

/-- The source as requests have seeded it last, or as it is if none of them does. -/
def restarted (random : Random) (requests : List Request) : Random :=
  requests.foldl (fun start request =>
    match request with
    | .reseed seed => start.reseed seed
    | _ => start) random

/-- The requests behind the last new seed. -/
def sinceReseed (requests : List Request) : List Request := requests.rtakeWhile (!·.isReseed)

/-- The number of normal deviates among requests. -/
def normals (requests : List Request) : Nat := requests.count .normal

/-- The number of draws that requests take: one for each uniform deviate, and two for each normal
one that begins a pair. -/
def draws (requests : List Request) : Nat :=
  requests.count .uniform + 2 * ((normals requests + 1) / 2)

theorem after_append (random : Random) (requests others : List Request) :
    random.after (requests ++ others) = (random.after requests).after others :=
  List.foldl_append

theorem after_concat (random : Random) (requests : List Request) (request : Request) :
    random.after (requests ++ [request]) = ((random.after requests).answer request).2 :=
  after_append random requests [request]

theorem restarted_concat (random : Random) (requests : List Request) (request : Request) :
    random.restarted (requests ++ [request]) =
      match request with
      | .reseed seed => .ofSeed seed
      | _ => random.restarted requests := by
  rw [restarted, List.foldl_append]
  cases request <;> rfl

theorem sinceReseed_concat (requests : List Request) (request : Request) :
    sinceReseed (requests ++ [request]) =
      if request.isReseed then [] else sinceReseed requests ++ [request] := by
  unfold sinceReseed
  cases h : request.isReseed with
  | true => exact List.rtakeWhile_concat_neg _ _ _ (by simp [h])
  | false => exact List.rtakeWhile_concat_pos _ _ _ (by simp [h])

/-- Only the requests behind the last new seed matter. -/
theorem after_eq_after_sinceReseed (random : Random) (requests : List Request) :
    random.after requests = (random.restarted requests).after (sinceReseed requests) := by
  induction requests using List.reverseRecOn with
  | nil => rfl
  | append_singleton requests request ih =>
    rw [after_concat, ih, restarted_concat, sinceReseed_concat]
    cases request with
    | reseed seed => rfl
    | uniform | normal => exact (after_concat _ _ _).symm

theorem isReseed_of_mem_sinceReseed {requests : List Request} {request : Request}
    (h : request ∈ sinceReseed requests) : request.isReseed = false := by
  simpa using List.mem_rtakeWhile_imp h

theorem spare_restarted {random : Random} (h : random.spare = none) (requests : List Request) :
    (random.restarted requests).spare = none := by
  induction requests using List.reverseRecOn with
  | nil => exact h
  | append_singleton requests request ih =>
    rw [restarted_concat]
    cases request with
    | reseed seed => rfl
    | uniform | normal => exact ih

/-! ## Pairs -/

/-- What requests without a new seed among them make of a source that keeps nothing: its generator
has taken their draws, and it keeps a deviate if the number of normal ones is odd, the second of the
pair that the last of them has begun. -/
structure Paired (start : Random) (requests : List Request) (random : Random) : Prop where
  generator : random.generator = start.generator.after (draws requests)
  even : Even (normals requests) → random.spare = none
  odd : Odd (normals requests) → ∃ before count,
    requests = before ++ .normal :: List.replicate count .uniform ∧ Even (normals before) ∧
      random.spare = some (start.generator.pair (draws before)).2

variable {start random : Random} {requests : List Request}

theorem normals_concat (requests : List Request) (request : Request) :
    normals (requests ++ [request]) = normals requests + if request = .normal then 1 else 0 := by
  simp [normals, List.count_append, List.count_singleton]

theorem draws_concat_uniform (requests : List Request) :
    draws (requests ++ [.uniform]) = draws requests + 1 := by
  simp [draws, normals]
  omega

theorem draws_concat_normal_of_even (h : Even (normals requests)) :
    draws (requests ++ [.normal]) = draws requests + 2 := by
  obtain ⟨k, hk⟩ := h
  simp [draws, normals_concat, hk]
  omega

theorem draws_concat_normal_of_odd (h : Odd (normals requests)) :
    draws (requests ++ [.normal]) = draws requests := by
  obtain ⟨k, hk⟩ := h
  simp [draws, normals_concat, hk]
  omega

theorem Paired.uniform (h : Paired start requests random) :
    Paired start (requests ++ [.uniform]) random.uniform.2 := by
  have hcount : normals (requests ++ [.uniform]) = normals requests := by
    simp [normals_concat]
  refine ⟨?_, fun he => ?_, fun ho => ?_⟩
  · rw [generator_uniform, draws_concat_uniform, Generator.after_succ, h.generator]
  · rw [spare_uniform]
    exact h.even (hcount ▸ he)
  · obtain ⟨before, count, hr, hb, hs⟩ := h.odd (hcount ▸ ho)
    refine ⟨before, count + 1, ?_, hb, (spare_uniform random).trans hs⟩
    rw [hr, List.replicate_succ', List.append_assoc, List.cons_append]

theorem Paired.normal (h : Paired start requests random) :
    Paired start (requests ++ [.normal]) random.normal.2 := by
  have hcount : normals (requests ++ [.normal]) = normals requests + 1 := by
    simp [normals_concat]
  rcases Nat.even_or_odd (normals requests) with he | ho
  · have hodd : Odd (normals (requests ++ [.normal])) := hcount ▸ he.add_one
    rw [normal_of_none (h.even he), h.generator]
    refine ⟨?_, fun he' => absurd he' (Nat.not_even_iff_odd.2 hodd), fun _ => ?_⟩
    · rw [draws_concat_normal_of_even he, Generator.after_add]
    · exact ⟨requests, 0, rfl, he, by rw [Generator.pair_after, Nat.add_zero]⟩
  · have heven : Even (normals (requests ++ [.normal])) := hcount ▸ ho.add_one
    obtain ⟨_, _, -, -, hs⟩ := h.odd ho
    rw [normal_of_spare hs]
    refine ⟨?_, fun _ => rfl, fun ho' => absurd heven (Nat.not_even_iff_odd.2 ho')⟩
    rw [draws_concat_normal_of_odd ho]
    exact h.generator

theorem paired_after (hs : start.spare = none)
    (hr : ∀ request ∈ requests, request.isReseed = false) :
    Paired start requests (start.after requests) := by
  induction requests using List.reverseRecOn with
  | nil => exact ⟨rfl, fun _ => hs, fun ho => absurd ho (by decide)⟩
  | append_singleton requests request ih =>
    obtain ⟨hrequests, hrequest⟩ := List.forall_mem_append.1 hr
    have hp := ih hrequests
    rw [after_concat]
    cases request with
    | uniform => exact hp.uniform
    | normal => exact hp.normal
    | reseed seed => cases hrequest _ List.mem_cons_self

/-- Whatever a source was asked for, with `draws` counted from its last start or new seed on: its
generator has taken these draws, and it keeps a deviate if the number of normal ones since then is
odd. After an even number of them the next normal deviate is the half with the sine of the pair that
the next two draws make. After an odd number it is the half with the cosine of the pair that the
last one has begun, without a draw. After a new seed the source answers as a new one with this seed
does. -/
theorem normal_deviates_paired (seed : Option UInt32) (generator : Generator)
    (requests : List Request) :
    let source : Random := ⟨seed, generator, none⟩
    let random := source.after requests
    let start := source.restarted requests
    let since := sinceReseed requests
    random.generator = start.generator.after (draws since) ∧
    (random.spare.isSome ↔ Odd (normals since)) ∧
    random.uniform.1 = start.generator.drawn (draws since) ∧
    (Even (normals since) →
      let u := start.generator.drawn (draws since)
      let v := start.generator.drawn (draws since + 1)
      random.normal.1 =
        Float.sqrt (-2.0 * Float.log (1.0 - u)) * Float.sin (2.0 * 3.141592653589793 * v)) ∧
    (Odd (normals since) → ∃ before count,
      since = before ++ .normal :: List.replicate count .uniform ∧ Even (normals before) ∧
        let u := start.generator.drawn (draws before)
        let v := start.generator.drawn (draws before + 1)
        random.normal =
          (Float.sqrt (-2.0 * Float.log (1.0 - u)) * Float.cos (2.0 * 3.141592653589793 * v),
            { random with spare := none })) ∧
    ∀ seed calls, random.answers (.reseed seed :: calls) = none :: (ofSeed seed).answers calls := by
  intro source random start since
  have hp : Paired start since random := by
    have hrandom : random = start.after since := after_eq_after_sinceReseed source requests
    rw [hrandom]
    exact paired_after (spare_restarted rfl requests) fun _ => isReseed_of_mem_sinceReseed
  refine ⟨hp.generator, ?_, ?_, fun he => ?_, fun ho => ?_, fun _ _ => rfl⟩
  · rcases Nat.even_or_odd (normals since) with he | ho
    · simp [hp.even he, he]
    · obtain ⟨_, _, -, -, hs⟩ := hp.odd ho
      simp [hs, ho]
  · rw [uniform_fst, hp.generator]
    rfl
  · intro u v
    rw [normal_of_none (hp.even he), hp.generator, Generator.pair_after, Nat.add_zero,
      Generator.pair_eq]
  · obtain ⟨before, count, hsince, hb, hs⟩ := hp.odd ho
    rw [Generator.pair_eq] at hs
    exact ⟨before, count, hsince, hb, normal_of_spare hs⟩

/-- The second normal deviate after a new seed completes the pair of the first, whatever was begun
before the new seed and drawn in between. -/
theorem normal_deviates_paired_reseed :
    let requests : List Request := [.normal, .reseed 5, .uniform, .normal, .uniform]
    let u := (Generator.ofSeed 5).drawn 1
    let v := (Generator.ofSeed 5).drawn 2
    Odd (normals (sinceReseed requests)) ∧
      ((ofSeed 3).after requests).normal.1 =
        Float.sqrt (-2.0 * Float.log (1.0 - u)) * Float.cos (2.0 * 3.141592653589793 * v) := by
  intro requests u v
  have ho : Odd (normals (sinceReseed requests)) := by decide
  obtain ⟨-, -, -, -, hodd, -⟩ := normal_deviates_paired (some 3) (.ofSeed 3) requests
  obtain ⟨before, count, hsince, -, hn⟩ := hodd ho
  have hsince : [.uniform, .normal, .uniform] =
      before ++ .normal :: List.replicate count .uniform := hsince
  have hbefore : before = [.uniform] := by
    clear hn
    match before with
    | [] => simp at hsince
    | [_] => simp_all
    | [_, _] => simp at hsince
    | _ :: _ :: _ :: _ => simp at hsince
  refine ⟨ho, ?_⟩
  rw [hbefore] at hn
  exact congrArg Prod.fst hn

end FormulaScript.Random
