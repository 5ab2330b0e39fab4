import Brainfuck.Proofs.Attendance

/-!
# What the pieces of standard input are worth

The forwarding of standard input goes round in one buffer, but of the buffer it passes on only what
the read has just put into it. So what it does for a sequence of reads depends on the reads up to the
end alone (`Forward.all_eq_upToEnd`), and what it passes on is their bytes (`Forward.pushed_all`), by
induction on the reads for any buffer. Two sequences of reads with the same bytes, cut into pieces or
interrupted in whatever way, are then the same input, and an invocation that nobody stops ends alike
on both (`Process.forwarding_ignores_pieces`).
-/

namespace Brainfuck.CommandLine

/-! ## The loop -/

/-- There is another read after this one. -/
def Reading.goesOn : Reading → Bool
  | .data [] => false
  | .data (_ :: _) => true
  | .interrupted => true
  | .failed _ => false

/-- The bytes that a read gives. -/
def Reading.bytes : Reading → List UInt8
  | .data bytes => bytes
  | .interrupted | .failed _ => []

/-- The reads up to the end, the last one included. -/
def upToEnd (readings : List Reading) : List Reading :=
  readings.takeWhile Reading.goesOn ++ (readings.dropWhile Reading.goesOn).take 1

/-- The bytes of all reads before the end, in their order. -/
def dataOf (readings : List Reading) : List UInt8 :=
  (readings.takeWhile Reading.goesOn).flatMap Reading.bytes

namespace Forward

variable {r : Reading} {rest readings : List Reading} {buffer buffer' : List UInt8}

/-- What is done after a read does not depend on what the buffer has held. -/
theorem ofReading_fst (buffer buffer' : List UInt8) (r : Reading) :
    (ofReading buffer r).1 = (ofReading buffer' r).1 := by
  rcases r with (_ | ⟨byte, bytes⟩) | _ | reason
  · rfl
  · exact congrArg push ((List.take_left' rfl).trans (List.take_left' rfl).symm)
  · rfl
  · rfl

/-- What is done after a read passes on its bytes. -/
theorem pushed_ofReading (buffer : List UInt8) (r : Reading) :
    (ofReading buffer r).1.pushed = r.bytes := by
  rcases r with (_ | ⟨byte, bytes⟩) | _ | reason
  · rfl
  · exact List.take_left' rfl
  · rfl
  · rfl

theorem all_of_goesOn (h : r.goesOn = true) (buffer : List UInt8) (rest : List Reading) :
    all buffer (r :: rest) = (ofReading buffer r).1 :: all (ofReading buffer r).2 rest := by
  rcases r with (_ | ⟨byte, bytes⟩) | _ | reason
  · cases h
  · rfl
  · rfl
  · cases h

theorem all_of_end (h : r.goesOn = false) (buffer : List UInt8) (rest : List Reading) :
    all buffer (r :: rest) = [(ofReading buffer r).1] := by
  rcases r with (_ | ⟨byte, bytes⟩) | _ | reason
  · rfl
  · cases h
  · cases h
  · rfl

/-- What is done depends on the reads up to the end alone. -/
theorem all_eq_upToEnd (buffer buffer' : List UInt8) (readings : List Reading) :
    all buffer readings = all buffer' (upToEnd readings) := by
  induction readings generalizing buffer buffer' with
  | nil => rfl
  | cons r rest ih =>
    have hsame := ofReading_fst buffer buffer' r
    cases hr : r.goesOn with
    | true =>
      have hend : upToEnd (r :: rest) = r :: upToEnd rest := by simp [upToEnd, hr]
      rw [hend, all_of_goesOn hr, all_of_goesOn hr, hsame,
        ih (ofReading buffer r).2 (ofReading buffer' r).2]
    | false =>
      have hend : upToEnd (r :: rest) = [r] := by simp [upToEnd, hr]
      rw [hend, all_of_end hr, all_of_end hr, hsame]

/-- What is passed on are the bytes of the reads before the end. -/
theorem pushed_all (buffer : List UInt8) (readings : List Reading) :
    (all buffer readings).flatMap pushed = dataOf readings := by
  induction readings generalizing buffer with
  | nil => rfl
  | cons r rest ih =>
    cases hr : r.goesOn with
    | true =>
      rw [all_of_goesOn hr, List.flatMap_cons, pushed_ofReading, ih, dataOf, dataOf,
        List.takeWhile_cons_of_pos hr, List.flatMap_cons]
    | false =>
      have hnone : r.bytes = [] := by
        rcases r with (_ | ⟨byte, bytes⟩) | _ | reason <;> first | rfl | cases hr
      rw [all_of_end hr, dataOf, List.takeWhile_cons_of_neg (by simp [hr]), List.flatMap_cons,
        pushed_ofReading, hnone]
      rfl

/-- The move that is made after a read, if it is one. -/
def move? : Forward → Option Move
  | .push bytes => some (.input bytes)
  | .over (some record) => some (.note record)
  | .again | .over none => none

theorem passed_move? (f : Forward) : f.move?.toList.flatMap Move.passed = f.pushed := by
  rcases f with bytes | _ | (_ | record)
  · exact List.append_nil bytes
  · rfl
  · rfl
  · rfl

end Forward

/-! ## Moves that forward -/

/-- The move is one of the thread that forwards standard input. -/
def Move.forwards : Move → Bool
  | .input _ | .note _ => true
  | _ => false

/-- The moves of the thread that forwards standard input, when its reads are these. -/
def forwardMoves (readings : List Reading) : List Move :=
  (Forward.all Forward.emptyBuffer readings).filterMap Forward.move?

/-- Of its moves for these reads the forwarding thread has made the first ones, with moves of the
other threads between them. -/
def Feeds (readings : List Reading) (moves : List Move) : Prop :=
  moves.filter Move.forwards <+: forwardMoves readings

variable {readings : List Reading} {moves : List Move} {turns : Nat → Move}

theorem passed_forwardMoves (readings : List Reading) :
    (forwardMoves readings).flatMap Move.passed = dataOf readings := by
  rw [← Forward.pushed_all Forward.emptyBuffer, forwardMoves]
  generalize Forward.all Forward.emptyBuffer readings = steps
  induction steps with
  | nil => rfl
  | cons f steps ih =>
    rw [List.flatMap_cons, ← ih, ← Forward.passed_move?, ← List.flatMap_append]
    cases h : f.move? <;> simp [h]

/-- Only the forwarding thread passes on bytes. -/
theorem passed_filter_forwards (moves : List Move) :
    (moves.filter Move.forwards).flatMap Move.passed = moves.flatMap Move.passed := by
  induction moves with
  | nil => rfl
  | cons m moves ih =>
    rw [List.filter_cons, List.flatMap_cons]
    cases m <;> simpa [Move.forwards, Move.passed] using ih

theorem Feeds.passed (h : Feeds readings moves) : moves.flatMap Move.passed <+: dataOf readings := by
  obtain ⟨later, hlater⟩ := h
  rw [← passed_forwardMoves, ← hlater, List.flatMap_append, passed_filter_forwards]
  exact List.prefix_append ..

namespace Process

/-- At any time the forwarding thread has made some of its moves for these reads, and in the end all
of them. -/
structure Forwarded (readings : List Reading) (turns : Nat → Move) : Prop where
  some : ∀ time, Feeds readings (movesUpTo turns time)
  all : ∃ time, (movesUpTo turns time).filter Move.forwards = forwardMoves readings

theorem Forwarded.passesOn (h : Forwarded readings turns) : PassesOn (dataOf readings) turns := by
  refine ⟨fun time => (h.some time).passed, ?_⟩
  obtain ⟨time, hall⟩ := h.all
  refine ⟨time, ?_⟩
  rw [← passed_filter_forwards, hall, passed_forwardMoves]

/-- All moves for these reads push all bytes of the reads before the end. -/
theorem pushed_acts_of_forwardMoves (p : Process)
    (h : moves.filter Move.forwards = forwardMoves readings) :
    pushed (p.acts moves) = dataOf readings := by
  rw [pushed_acts, ← passed_filter_forwards, h, passed_forwardMoves]

/-- After both the main thread, the result of the run, standard output and what has been said are the
same. -/
structure EndsAs (p : Process) (xs ys : List Move) : Prop where
  stage : (p.run xs).1.stage = (p.run ys).1.stage
  result : (p.run xs).1.system.result? 0 = (p.run ys).1.system.result? 0
  stdout : stdoutOf (p.run xs).2 = stdoutOf (p.run ys).2
  complaints : complaintsOf (p.run xs).2 = complaintsOf (p.run ys).2

theorem Started.endsAs {p : Process} {xs ys : List Move} {input : List UInt8} {exit exit' : Nat}
    (h : p.Started) (hxs : p.Unstopped xs) (hys : p.Unstopped ys)
    (hinput : xs.flatMap Move.passed <+: input) (hinput' : ys.flatMap Move.passed <+: input)
    (hover : (p.run xs).1.stage = .over exit) (hover' : (p.run ys).1.stage = .over exit') :
    p.EndsAs xs ys := by
  obtain ⟨r, hr, -⟩ := h.leaves_behind hover
  obtain ⟨r', hr', -⟩ := h.leaves_behind hover'
  obtain ⟨rfl, -⟩ := h.unstopped_agree hxs hys hinput hinput' hr hr'
  obtain ⟨rfl, hout, hsaid⟩ := h.endsAlike hxs hys hinput hinput' hover hover'
  exact ⟨hover.trans hover'.symm, hr.trans hr'.symm, hout, hsaid⟩

/-! ## All the input at once -/

/-- The worker, and then the main thread twice. -/
def rota (time : Nat) : Move :=
  if time % 3 = 0 then .work else if time % 3 = 1 then .join else .conclude

/-- These moves first, and then those of the worker and the main thread in turn. -/
def inTurn (first : List Move) (time : Nat) : Move :=
  if h : time < first.length then first[time] else rota (time - first.length)

variable {p : Process} {first : List Move} {m : Move}

theorem inTurn_add (first : List Move) (time : Nat) :
    inTurn first (first.length + time) = rota time := by
  rw [inTurn, dif_neg (by omega), Nat.add_sub_cancel_left]

theorem movesUpTo_inTurn (first : List Move) (time : Nat) :
    movesUpTo (inTurn first) (first.length + time) = first ++ movesUpTo rota time := by
  have hfirst : (List.range first.length).map (inTurn first) = first :=
    List.ext_getElem (by simp) fun i hi _ => by simp_all [inTurn]
  have hrota : inTurn first ∘ (first.length + ·) = rota := funext fun i => inTurn_add first i
  rw [movesUpTo, List.range_add, List.map_append, List.map_map, hfirst, hrota]
  rfl

theorem mem_movesUpTo_rota {time : Nat} (h : m ∈ movesUpTo rota time) :
    m = .work ∨ m = .join ∨ m = .conclude := by
  obtain ⟨i, -, rfl⟩ := List.mem_map.mp h
  unfold rota
  split
  · exact .inl rfl
  · split
    · exact .inr (.inl rfl)
    · exact .inr (.inr rfl)

theorem mem_forwardMoves (h : m ∈ forwardMoves readings) : m.forwards = true := by
  obtain ⟨f, -, hf⟩ := List.mem_filterMap.mp h
  rcases f with bytes | _ | (_ | record) <;> cases hf <;> rfl

/-- Moves are not stopped among which are none of those that stop or refuse. -/
theorem unstopped_of_forall
    (h : ∀ m ∈ moves, m.forwards = true ∨ m = .work ∨ m = .join ∨ m = .conclude) :
    p.Unstopped moves := by
  constructor
  · intro hstop
    obtain ⟨before, m, later, rfl, hfirst⟩ := exists_firstStop hstop
    have hm := h m (List.mem_append_right _ List.mem_cons_self)
    obtain rfl | ⟨rfl, -⟩ := hfirst.cases <;> simp [Move.forwards] at hm
  · intro reason hmem
    have hm := h _ hmem
    simp [Move.forwards] at hm

theorem goesOn_inTurn (h : ∀ m ∈ first, m.forwards = true) : p.GoesOn (inTurn first) where
  works time := ⟨first.length + 3 * time, by omega, by rw [inTurn_add, rota, if_pos (by omega)]⟩
  joins time := ⟨first.length + (3 * time + 1), by omega, by
    rw [inTurn_add, rota, if_neg (by omega), if_pos (by omega)]⟩
  concludes time := ⟨first.length + (3 * time + 2), by omega, by
    rw [inTurn_add, rota, if_neg (by omega), if_neg (by omega)]⟩
  unstopped time := by
    refine unstopped_of_forall fun m hm => ?_
    have hmem := (movesUpTo_isPrefix (inTurn first) (Nat.le_add_left time first.length)).subset hm
    rw [movesUpTo_inTurn] at hmem
    exact (List.mem_append.mp hmem).imp (h m) mem_movesUpTo_rota

theorem forwarded_inTurn (readings : List Reading) :
    Forwarded readings (inTurn (forwardMoves readings)) := by
  have hall : ∀ time, (movesUpTo (inTurn (forwardMoves readings))
      ((forwardMoves readings).length + time)).filter Move.forwards = forwardMoves readings := by
    intro time
    have hnone : (movesUpTo rota time).filter Move.forwards = [] := by
      refine List.filter_eq_nil_iff.mpr fun m hm => ?_
      obtain rfl | rfl | rfl := mem_movesUpTo_rota hm <;> simp [Move.forwards]
    rw [movesUpTo_inTurn, List.filter_append, hnone, List.append_nil]
    exact List.filter_eq_self.mpr fun m hm => mem_forwardMoves hm
  refine ⟨fun time => ?_, _, hall 0⟩
  have hle := (movesUpTo_isPrefix (inTurn (forwardMoves readings))
    (Nat.le_add_left time (forwardMoves readings).length)).filter Move.forwards
  rwa [hall] at hle

/-- How standard input is cut into pieces does not matter, nor how often a read of it is interrupted.
Whatever its buffer holds at the start, the forwarding passes on exactly the bytes of the reads before
the end, each once and in their order, and what it does is the same for any other content of the
buffer and without the reads that would come after the end. These bytes are what an invocation pushes
to the queue of its engine. So let two sequences of reads have the same bytes, and let an invocation
end on the first of them without being stopped, in whatever order its threads have moved. Then every
way in which it ends on the second without being stopped has the same exit code and result and the
same on standard output and among the complaints; and it does end on the second, if its threads go on
and nobody stops it. -/
theorem forwarding_ignores_pieces :
    (∀ (buffer buffer' : List UInt8) (readings : List Reading),
      (Forward.all buffer readings).flatMap Forward.pushed = dataOf readings ∧
      Forward.all buffer readings = Forward.all buffer' (upToEnd readings)) ∧
    (∀ (p : Process) (readings : List Reading) (moves : List Move),
      moves.filter Move.forwards = forwardMoves readings →
        pushed (p.acts moves) = dataOf readings) ∧
    ∀ (p : Process) (readings readings' : List Reading) (xs : List Move) (exit : Nat), p.Started →
      dataOf readings = dataOf readings' → Feeds readings xs → p.Unstopped xs →
      (p.run xs).1.stage = .over exit →
      (∀ ys exit', Feeds readings' ys → p.Unstopped ys → (p.run ys).1.stage = .over exit' →
        p.EndsAs xs ys) ∧
      ∀ turns, p.GoesOn turns → Forwarded readings' turns →
        ∃ time, p.EndsAs xs (movesUpTo turns time) := by
  refine ⟨fun buffer buffer' readings => ?_, fun p readings moves h => ?_, ?_⟩
  · exact ⟨Forward.pushed_all buffer readings, Forward.all_eq_upToEnd buffer buffer' readings⟩
  · exact p.pushed_acts_of_forwardMoves h
  · intro p readings readings' xs exit h hdata hfeeds hxs hover
    have hinput := hfeeds.passed
    rw [hdata] at hinput
    constructor
    · intro ys exit' hfeeds' hys hover'
      exact h.endsAs hxs hys hinput hfeeds'.passed hover hover'
    · intro turns hgoes hforwarded
      have hpasses := hforwarded.passesOn
      obtain ⟨time, exit', hover'⟩ := h.eventually_over hgoes hpasses hxs hinput hover
      exact ⟨time, h.endsAs hxs (hgoes.unstopped time) hinput (hpasses.some time) hover hover'⟩

/-- Two bytes in one piece, and the same in two pieces after an interrupted read. What comes after the
end is not read. -/
theorem forwarding_ignores_pieces_of_two :
    let p : Process := ⟨"jbf", false, ",.,.", ⟨1, none⟩,
      ⟨⟨1, .empty, true, true⟩, #[⟨.spawn, .ofString ",.,.", .launching⟩]⟩, false, .waiting⟩
    let readings : List Reading := [.data [72, 105], .data [], .data [33]]
    let readings' : List Reading := [.interrupted, .data [72], .data [105], .failed "gone"]
    let xs : List Move := .input [72, 105] :: List.replicate 24 .work ++ [.join, .conclude]
    let ys : List Move := .work :: .input [72] :: List.replicate 9 .work ++ .input [105] ::
      List.replicate 24 .work ++ [.join, .conclude]
    let turns := inTurn (forwardMoves readings')
    p.Started ∧ dataOf readings = [72, 105] ∧ dataOf readings' = [72, 105] ∧
      (Forward.all Forward.emptyBuffer readings).flatMap Forward.pushed = [72, 105] ∧
      forwardMoves readings = [.input [72, 105]] ∧ pushed (p.acts xs) = [72, 105] ∧
      Feeds readings xs ∧ Feeds readings' ys ∧ p.Unstopped xs ∧ p.Unstopped ys ∧
      (p.run xs).1.stage = .over 0 ∧ stdoutOf (p.run xs).2 = [72, 105, 10] ∧ p.EndsAs xs ys ∧
      p.GoesOn turns ∧ Forwarded readings' turns ∧
      ∃ time, p.EndsAs xs (movesUpTo turns time) := by
  intro p readings readings' xs ys turns
  have started : p.Started := ⟨⟨_, rfl, rfl⟩, rfl, rfl⟩
  have hdata : dataOf readings = [72, 105] := rfl
  have hdata' : dataOf readings' = [72, 105] := rfl
  have hmoves : forwardMoves readings = [.input [72, 105]] := rfl
  have hall : xs.filter Move.forwards = forwardMoves readings := rfl
  have hfeeds : Feeds readings xs := ⟨[], (List.append_nil _).trans hall⟩
  have hfeeds' : Feeds readings' ys := ⟨(forwardMoves readings').drop 2, rfl⟩
  have hxs : p.Unstopped xs := unstopped_of_forall (by simp [xs, Move.forwards])
  have hys : p.Unstopped ys := unstopped_of_forall (by simp [ys, Move.forwards])
  have hover : (p.run xs).1.stage = .over 0 := rfl
  have hover' : (p.run ys).1.stage = .over 0 := rfl
  obtain ⟨hpieces, hpushed, hruns⟩ := forwarding_ignores_pieces
  obtain ⟨alike, comes⟩ := hruns p readings readings' xs 0 started (hdata.trans hdata'.symm) hfeeds
    hxs hover
  have hgoes : p.GoesOn turns := goesOn_inTurn fun m hm => mem_forwardMoves hm
  have hforwarded : Forwarded readings' turns := forwarded_inTurn readings'
  exact ⟨started, hdata, hdata', (hpieces Forward.emptyBuffer [] readings).1, hmoves,
    hpushed p readings xs hall, hfeeds, hfeeds', hxs, hys, hover, by decide,
    alike ys 0 hfeeds' hys hover', hgoes, hforwarded, comes turns hgoes hforwarded⟩

end Process

end Brainfuck.CommandLine
