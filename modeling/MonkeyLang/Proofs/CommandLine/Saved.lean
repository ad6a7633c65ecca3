import MonkeyLang.CommandLine.Report
import MonkeyLang.Proofs.Grammar.Intact
import MonkeyLang.Proofs.Tree.Object

/-!
# Saved trees run like their source

A program that was read from a file is whole, so the text of its object is read back
(`Json.read_pretty`) and the object is that of the same tree (`Tree.ofJson_toJson`). Stored as bytes
the text stays what it is, since no carriage return is left in it. Main statement: `perform_saved`.
-/

namespace MonkeyLang

/-! ## Stored texts -/

theorem Text.normalizeNewlines_of_not_mem {cs : List Char} (h : '\r' ∉ cs) :
    normalizeNewlines cs = cs := by
  fun_induction normalizeNewlines cs with
  | case1 => rfl
  | case2 cs _ => exact absurd List.mem_cons_self h
  | case3 cs _ _ => exact absurd List.mem_cons_self h
  | case4 c cs _ _ ih => rw [ih fun hm => h (List.mem_cons_of_mem c hm)]

/-- A text without carriage returns is read as it was stored. -/
theorem readText?_toUTF8 {s : String} (h : '\r' ∉ s.toList) : readText? s.toUTF8 = some s := by
  have hs : String.fromUTF8? s.toUTF8 = some s := dif_pos s.isValidUTF8
  rw [readText?, hs, Option.map_some, Text.normalizeNewlines_of_not_mem h, String.ofList_toList]

namespace CommandLine

variable {find : Path → Found} {o : Options} {path : Path} {program : Program}

/-! ## Programs from files -/

/-- A program that was read from a file was read without a mistake. -/
theorem exists_isAccepted_of_readProgram (h : readProgram find o path = .ok program) :
    ∃ c : Code, IsAccepted c ∧ program = c.toProgram := by
  unfold readProgram at h
  cases ht : readFile find path with
  | error r => rw [ht] at h; cases h
  | ok text =>
    simp only [ht, ok_bind] at h
    split at h
    · cases h
    next p hp =>
    split at h
    · next hd =>
      obtain ⟨tree, ds⟩ := p
      -- read without a mistake, by the front end that was asked for
      obtain rfl : ds = [] := List.isEmpty_iff.1 hd
      cases h
      refine ⟨tree, ⟨text, ?_⟩, rfl⟩
      cases hg : o.grammar with
      | true => exact .inr (by simpa [hg, FrontEnd.parse?] using hp)
      | false => exact .inl ⟨nestingLimit, by simpa [hg, FrontEnd.parse?, parse?] using hp⟩
    · cases h

/-- The object of a program from a file is read back from its text. -/
theorem writable_of_readProgram (h : readProgram find o path = .ok program) :
    (program.toJson id).Writable := by
  obtain ⟨c, hc, rfl⟩ := exists_isAccepted_of_readProgram h
  rw [Tree.toProgram, Tree.toJson_mapLabels]
  exact Tree.writable_toJson .string c hc.isIntact

/-! ## What a task depends on -/

variable {after : Path → Found} {o' : Options}

theorem readProgram_congr (h : o'.grammar = o.grammar) :
    readProgram find o' path = readProgram find o path := by
  unfold readProgram
  rw [h]

/-- A run depends on the files only for the place of the trace. -/
theorem execute_congr (hf : after traceFile = find traceFile) (hv : o'.verbosity = o.verbosity)
    (hs : o'.strictArity = o.strictArity) :
    execute after o' program = execute find o program := by
  simp only [execute, openSession, traceWritten, hf, hv, hs]

/-! ## Saving and running -/

/-- What is written when a tree is saved, and what the tree must be for that. -/
theorem eq_of_mem_written_emit {p : Path} {text : String}
    (h : readProgram find o path = .ok program) (hw : (p, text) ∈ (emit find o path).written) :
    (program.toJson id).fits nestingLimit = true ∧ p = path.extended ".ast.json" ∧
      text = (program.toJson id).pretty := by
  simp only [emit, h] at hw
  split at hw
  · next hf =>
    refine ⟨hf, ?_⟩
    split at hw
    · cases hw
    · cases hw
    · simpa using hw
  · cases hw

theorem emit_of_fits (h : readProgram find o path = .ok program)
    (hf : (program.toJson id).fits nestingLimit = true)
    (hd : find (path.extended ".ast.json") ≠ .directory)
    (ht : find (path.extended ".ast.json") ≠ .tooLong) :
    emit find o path =
      { stdout := (path.extended ".ast.json").text ++ "\n"
        written := [(path.extended ".ast.json", (program.toJson id).pretty)] } := by
  simp only [emit, h, hf, if_true]

/-- A tree that was stored is read back. -/
theorem readSaved_of_stored (hw : (program.toJson id).Writable)
    (hf : (program.toJson id).fits nestingLimit = true)
    (hs : find path = .file (program.toJson id).pretty.toUTF8) :
    readSaved find path = .ok program := by
  have hr : '\r' ∉ (program.toJson id).pretty.toList := by
    rw [Json.pretty, String.toList_ofList]
    exact hw.return_not_mem_write 0
  have htext : readFile find path = .ok (program.toJson id).pretty := by
    simp only [readFile, hs, readText?_toUTF8 hr]
  simp only [readSaved, htext, ok_bind, Json.read_pretty hw hf,
    Tree.ofJson_toJson (Tree.fits_of_toJson hf), pure_eq_ok]

/-- A program that can be read from its file is saved as a text that reads back as the same program,
whatever its nesting. Where this text can be written, and it is what is then found in its place, it
runs like the program file: the whole report of the command is the same. -/
theorem perform_saved (input : String) {find : Path → Found} {file : Path} {program : Program}
    {emitting running saved : Options} (h : readProgram find running file = .ok program)
    (hr : running.task = .execute file)
    (he : emitting.task = .emit file ∧ emitting.grammar = running.grammar)
    (hs : saved.task = .executeSaved (file.extended ".ast.json") ∧
      saved.verbosity = running.verbosity ∧ saved.strictArity = running.strictArity) :
    let target := file.extended ".ast.json"
    let json := program.toJson id
    (∃ n, json.fits n = true) ∧
    (∀ n, json.fits n = true →
      Json.read n json.pretty = .ok json ∧ Tree.ofJson n json = .ok program) ∧
    (json.fits nestingLimit = true → find target ≠ .directory → find target ≠ .tooLong →
      perform find input emitting =
        { stdout := target.text ++ "\n", written := [(target, json.pretty)] }) ∧
    ∀ p text, (p, text) ∈ (perform find input emitting).written →
      p = target ∧ text = json.pretty ∧
      ∀ after : Path → Found, after p = .file text.toUTF8 → after traceFile = find traceFile →
        perform after input saved = perform find input running := by
  intro target json
  have hw : json.Writable := writable_of_readProgram h
  have hemit : perform find input emitting = emit find emitting file := by
    rw [perform, he.1]
  have hread : readProgram find emitting file = .ok program := (readProgram_congr he.2).trans h
  refine ⟨⟨_, Json.fits_of_sizeOf_lt (Nat.lt_succ_self _)⟩, fun n hn => ?_, fun hf hd ht => ?_,
    fun p text hm => ?_⟩
  · exact ⟨Json.read_pretty hw hn, Tree.ofJson_toJson (Tree.fits_of_toJson hn)⟩
  · rw [hemit, emit_of_fits hread hf hd ht]
  · rw [hemit] at hm
    obtain ⟨hf, rfl, rfl⟩ := eq_of_mem_written_emit hread hm
    refine ⟨rfl, rfl, fun after hstored htrace => ?_⟩
    -- The stored text is read back as the program, and a run looks at no file but the trace.
    calc perform after input saved
        = executeSaved after saved target := by rw [perform, hs.1]
      _ = execute after saved program := by
        rw [executeSaved, readSaved_of_stored hw hf hstored]
      _ = execute find running program := execute_congr htrace hs.2.1 hs.2.2
      _ = perform find input running := by simp only [perform, hr, h]

theorem readProgram_of_file {text : String} {p : Parsed} (hs : find path = .file text.toUTF8)
    (hr : '\r' ∉ text.toList)
    (hp : (if o.grammar then FrontEnd.grammar else .precedence).parse? text = some p)
    (hd : p.diagnostics.isEmpty = true) : readProgram find o path = .ok p.tree.toProgram := by
  simp only [readProgram, readFile, hs, readText?_toUTF8 hr, ok_bind, hp, hd, if_true, pure_eq_ok]

/-- A program whose text has characters that are escaped when it is saved. It prints them and then
fails, with a trace. -/
theorem perform_saved_escaped :
    let text := "let s = \"\\ \t\u0001é\n\"; if (len(s) < 9) \x7b puts(s); s - 1 \x7d"
    let file := Path.ofString "a/b.monkey"
    let target := Path.ofString "a/b.monkey.ast.json"
    let find : Path → Found := fun p => if p = file then .file text.toUTF8 else .missing
    let running : Options := { program := some "a/b.monkey", verbosity := 2, grammar := true }
    let emitting : Options := { emitAst := some "a/b.monkey", grammar := true }
    let saved : Options := { ast := some "a/b.monkey.ast.json", verbosity := 2 }
    ∃ program json, readProgram find running file = .ok program ∧
      perform find "" emitting = { stdout := "a/b.monkey.ast.json\n", written := [(target, json)] } ∧
      perform (fun p => if p = target then .file json.toUTF8 else find p) "" saved =
        perform find "" running := by
  intro text file target find running emitting saved
  let code : Code := .program [.letStatement "s" (.string "\\ \t\u0001é\n"),
    .expressionStatement (.conditional
      (.infixed (.call (.identifier "len") [.identifier "s"]) "<" (.integer 9))
      (.block [.expressionStatement (.call (.identifier "puts") [.identifier "s"]),
        .expressionStatement (.infixed (.identifier "s") "-" (.integer 1))])
      .missing)]
  have hread : readProgram find running file = .ok code.toProgram := by
    have hparse : parseGrammar? text = some ⟨code, []⟩ := by decide +kernel
    exact readProgram_of_file (p := ⟨code, []⟩) (if_pos rfl) (by decide) hparse rfl
  have hfits : (code.toProgram.toJson id).fits nestingLimit = true := by decide +kernel
  -- the three command lines speak of the same file, and the last two of the same settings
  have he : emitting.task = .emit file ∧ emitting.grammar = running.grammar := ⟨rfl, rfl⟩
  have hs : saved.task = .executeSaved (file.extended ".ast.json") ∧
      saved.verbosity = running.verbosity ∧ saved.strictArity = running.strictArity :=
    ⟨rfl, rfl, rfl⟩
  -- nothing stands in the way of the saved tree
  have hfree : find (file.extended ".ast.json") = .missing := if_neg (by decide)
  obtain ⟨-, -, hemit, hrun⟩ := perform_saved "" hread rfl he hs
  have hemit := hemit hfits (by simp [hfree]) (by simp [hfree])
  refine ⟨_, _, hread, hemit, (hrun target _ ?_).2.2 _ (if_pos rfl) (if_neg (by decide))⟩
  rw [hemit]
  exact List.mem_singleton_self _

end CommandLine

end MonkeyLang
