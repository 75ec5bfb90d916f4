import Cisa.AnalyzerManager.CommittedFiles
import Cisa.AnalyzerManager.LiveKeys

/-!
# The written results of a run

Every commit whose results are aggregated writes its files into a directory of its own. What
an earlier commit has written stays as it was.
-/

namespace Cisa

open Std

namespace AnalyzerManager

variable {E : Env} {n : ℕ} {P P' : Program} {c : Commit}

theorem hexsha_correctChanges (S : State) (path : String)
    (delFlps newFlps : List FunctionLinePair) : (correctChanges S path delFlps newFlps).cur.hexsha = S.cur.hexsha := by
  have hchange : ∀ (T : State) p, (correctChange path delFlps T p).cur.hexsha = T.cur.hexsha := by
    intro T p
    unfold correctChange
    split <;> rfl
  exact (Fold.foldl_frame (f := removeFunction) (p := fun T : State => T.cur.hexsha)
    (fun _ _ => rfl) _ _).trans (Fold.foldl_frame (p := fun T : State => T.cur.hexsha) hchange _ _)

theorem hexsha_correctPaths (delInfos : String → List FunctionLinePair) (S : State)
    (upPaths : List String) : (correctPaths E delInfos S upPaths).cur.hexsha = S.cur.hexsha :=
  Fold.foldl_frame (p := fun T : State => T.cur.hexsha)
    (fun T _ => hexsha_correctChanges T _ _ _) _ _

theorem hexsha_aggregateFunctions (doAgg : Bool) (S : State) (Fs : List FuncPtr) :
    (aggregateFunctions doAgg S Fs).cur.hexsha = S.cur.hexsha := by
  unfold aggregateFunctions
  split
  · exact Fold.foldl_frame (p := fun T : State => T.cur.hexsha)
      (fun T F => by rw [aggregateFunction_eq]) _ _
  · rfl

theorem Committed.hexsha_eq (h : Committed E n P c P') : P'.cur.hexsha = c.hexsha := by
  have hstate : P'.cur = (aggregateFunctions c.doAgg h.post (c.postFuncs E P h.td)).cur :=
    congrArg State.cur h.state_eq
  rw [hstate, hexsha_aggregateFunctions, cur_updateFunctions h.post_eq, hexsha_correctPaths]
  show (c.before E P).cur.hexsha = c.hexsha
  exact hexsha_aggregateFunctions _ _ _

theorem Commit.written_eq (h : c.run E n P = some P') : P'.outPath = P.outPath ∧
    P'.written = if c.doAgg then P.written.insertMany (AnalyzerManager.commit E P.outPath P'.cur)
      else P.written := by
  unfold Commit.run updateModules at h
  simp only [Option.bind_eq_bind, Option.pure_def] at h
  obtain ⟨td, _, h⟩ := Option.bind_eq_some_iff.mp h
  obtain ⟨post, _, h⟩ := Option.bind_eq_some_iff.mp h
  obtain rfl := Option.some.inj h
  cases c.doAgg with
  | false => exact ⟨rfl, rfl⟩
  | true => exact ⟨rfl, rfl⟩

/-- The first slash tells where the name of the directory ends. -/
theorem slash_append_inj {xs xs' ys ys' : List Char} (hxs : '/' ∉ xs) (hxs' : '/' ∉ xs')
    (h : xs ++ '/' :: ys = xs' ++ '/' :: ys') : xs = xs' := by
  have hrev := congrArg List.reverse h
  simp only [List.reverse_append, List.reverse_cons, List.append_assoc,
    List.singleton_append] at hrev
  exact List.reverse_inj.mp (append_slash_inj (by simpa using hxs) (by simpa using hxs') hrev).2

theorem hexsha_eq_of_mem_commit {outPath path text text' : String} {cur cur' : Context}
    (hslash : '/' ∉ cur.hexsha.toList) (hslash' : '/' ∉ cur'.hexsha.toList)
    (h : (path, text) ∈ commit E outPath cur) (h' : (path, text') ∈ commit E outPath cur') :
    cur.hexsha = cur'.hexsha := by
  obtain ⟨F, analName, aret, _, hpath, _⟩ := mem_commit.mp h
  obtain ⟨G, analName', aret', _, hpath', _⟩ := mem_commit.mp h'
  have hlist := congrArg String.toList (hpath.symm.trans hpath')
  simp only [resultPath, String.toList_append, List.append_assoc] at hlist
  have hrest := List.append_cancel_left (List.append_cancel_left hlist)
  exact String.toList_inj.mp (slash_append_inj hslash hslash' hrest)

/-- A run, with the contexts of the commits whose results are written, the last one first. A
commit is named by a hash, which has no slash, and is processed once. -/
inductive Logged (E : Env) : List Context → Program → Prop
  | init (n : ℕ) (analyzers : List IAnalyzer) (files : List BCFile) (outPath : String)
      {P : Program} (step : initializeProgram E n analyzers files outPath = some P) :
      Logged E [] P
  | skip (n : ℕ) (c : Commit) {log : List Context} {P P' : Program} (logged : Logged E log P)
      (doAgg : c.doAgg = false) (step : c.run E n P = some P') : Logged E log P'
  | write (n : ℕ) (c : Commit) {log : List Context} {P P' : Program} (logged : Logged E log P)
      (doAgg : c.doAgg = true) (noSlash : '/' ∉ c.hexsha.toList)
      (once : c.hexsha ∉ log.map Context.hexsha) (step : c.run E n P = some P') :
      Logged E (P'.cur :: log) P'

theorem Logged.noSlash {log : List Context} (h : Logged E log P) :
    ∀ cur ∈ log, '/' ∉ cur.hexsha.toList := by
  induction h with
  | init => simp
  | skip _ _ _ _ _ ih => exact ih
  | write n c _ _ hslash _ hstep ih =>
    intro cur hcur
    rcases List.mem_cons.mp hcur with rfl | hcur
    · obtain ⟨hc⟩ := c.committed hstep
      rw [hc.hexsha_eq]
      exact hslash
    · exact ih cur hcur

/-- What is there after a run are the files of the commits of the log, each as its commit has
written it: no later commit overwrites a file, and none is lost. -/
theorem written_iff {log : List Context} (h : Logged E log P) (path text : String) :
    P.written[path]? = some text ↔
      ∃ cur ∈ log, (committed E P.outPath cur)[path]? = some text := by
  induction h with
  | init n analyzers files outPath hstep =>
    obtain ⟨S, _, hP⟩ := Option.bind_eq_some_iff.mp hstep
    obtain rfl := Option.some.inj hP
    simp [Program.setState]
  | skip n c _ hagg hstep ih =>
    obtain ⟨hout, hwritten⟩ := Commit.written_eq hstep
    rw [hwritten, hout, hagg]
    exact ih
  | @write n c log P P' hlog hagg hslash honce hstep ih =>
    obtain ⟨hout, hwritten⟩ := Commit.written_eq hstep
    obtain ⟨hc⟩ := c.committed hstep
    rw [hwritten, hout, hagg, if_pos rfl, ExtTreeMap.getElem?_insertMany_eq_or]
    show (committed E P.outPath P'.cur)[path]?.or P.written[path]? = some text ↔ _
    rw [Option.or_eq_some_iff, ih, List.exists_mem_cons_iff]
    refine or_congr_right ⟨And.right, ?_⟩
    rintro ⟨cur, hcur, hfile⟩
    refine ⟨Option.eq_none_iff_forall_ne_some.mpr fun text' hnew => ?_, cur, hcur, hfile⟩
    -- a file of both commits would name them both
    have hsame := hexsha_eq_of_mem_commit (hlog.noSlash cur hcur)
      (by rw [hc.hexsha_eq]; exact hslash) (ExtTreeMap.mem_of_getElem?_insertMany hfile)
      (ExtTreeMap.mem_of_getElem?_insertMany hnew)
    exact honce (List.mem_map.mpr ⟨cur, hcur, hsame.trans hc.hexsha_eq⟩)

/-- The file of the only commit so far. -/
theorem written_iff_changed : ∃ P', Logged readerFiles [P'.cur] P' ∧
    P'.written["out/c1/wav_read/sub"]? = some (printJson (subResult ["wav"])) ∧
    ∃ cur ∈ [P'.cur], (committed readerFiles P'.outPath cur)["out/c1/wav_read/sub"]? =
      some (printJson (subResult ["wav"])) := by
  have hrun : (((initializeProgram readerFiles 2 registeredAnalyzers
      (TypeDive.parsed [("a.bc", 0)]) "out").bind (readerCommit.run readerFiles 2)).bind
      fun P' => P'.written["out/c1/wav_read/sub"]?) = some (printJson (subResult ["wav"])) := by
    decide +kernel
  obtain ⟨P', hP', hfile⟩ := Option.bind_eq_some_iff.mp hrun
  obtain ⟨P, hP, hstep⟩ := Option.bind_eq_some_iff.mp hP'
  have hlog : Logged readerFiles [P'.cur] P' :=
    Logged.write 2 readerCommit (Logged.init 2 registeredAnalyzers _ "out" hP) rfl (by decide)
      (by decide) hstep
  exact ⟨P', hlog, hfile, (written_iff hlog _ _).mp hfile⟩

end AnalyzerManager

end Cisa
