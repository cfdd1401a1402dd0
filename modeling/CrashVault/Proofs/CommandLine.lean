import Mathlib.Data.List.TakeWhile
import CrashVault.Options

/-! The grammar of the command line: behind the program's name stand pairs of a known flag and its value, a
level by its name, and the last base directory is not empty. Exactly such a line is accepted, and the last
value of a flag is the one that counts; of any other line it is known what is said of it and what of it has
been taken in (`ofCommandLine_grammar`). -/

namespace CrashVault

namespace Severity

def names : List String := all.map name

theorem ofName?_eq_none_iff {s : String} : ofName? s = none ↔ s ∉ names := by
  simp [ofName?, names]

theorem mem_names_of_ofName? {s : String} {v : Severity} (h : ofName? s = some v) : s ∈ names := by
  rw [ofName?_eq_some_iff.1 h]
  cases v <;> decide

end Severity

namespace Options

def dirFlags : List String := ["-d", "--dir"]

def logFlags : List String := ["-l", "--log"]

def levelFlags : List String := ["-v", "--level"]

def knownFlags : List String := dirFlags ++ logFlags ++ levelFlags

/-- Words two by two; a last one alone is left out. -/
def pairs : List String → List (String × String)
  | flag :: value :: rest => (flag, value) :: pairs rest
  | _ => []

def fault? (pair : String × String) : Option OptionError :=
  if pair.1 ∉ knownFlags then some (.unknownFlag pair.1)
  else if pair.1 ∈ levelFlags ∧ pair.2 ∉ Severity.names then some (.unknownLevel pair.2)
  else none

def take (o : Options) (pair : String × String) : Options :=
  if pair.1 ∈ dirFlags then { o with baseDir := pair.2 }
  else if pair.1 ∈ logFlags then { o with logFile := pair.2 }
  else if pair.1 ∈ levelFlags then { o with logLevel := (Severity.ofName? pair.2).getD o.logLevel }
  else o

/-- The value of the last pair with one of these flags. -/
def lastValue? (flags : List String) (ps : List (String × String)) : Option String :=
  (ps.filter (·.1 ∈ flags)).getLast?.map Prod.snd

theorem not_mem_logFlags {flag : String} (h : flag ∈ dirFlags) : flag ∉ logFlags := by
  have hall : ∀ flag ∈ dirFlags, flag ∉ logFlags := by decide
  exact hall flag h

theorem not_mem_levelFlags {flag : String} (h : flag ∈ dirFlags ∨ flag ∈ logFlags) : flag ∉ levelFlags := by
  have hall : ∀ flag ∈ dirFlags ++ logFlags, flag ∉ levelFlags := by decide
  exact hall flag (List.mem_append.2 h)

theorem set_eq (o : Options) (flag value : String) : o.set flag value =
    match fault? (flag, value) with
    | none => .ok (o.take (flag, value))
    | some e => .error e := by
  have hdir : flag = "-d" ∨ flag = "--dir" ↔ flag ∈ dirFlags := by simp [dirFlags]
  have hlog : flag = "-l" ∨ flag = "--log" ↔ flag ∈ logFlags := by simp [logFlags]
  have hlevel : flag = "-v" ∨ flag = "--level" ↔ flag ∈ levelFlags := by simp [levelFlags]
  have hknown : flag ∈ knownFlags ↔ flag ∈ dirFlags ∨ flag ∈ logFlags ∨ flag ∈ levelFlags := by
    simp [knownFlags]
  simp only [set, fault?, take, hdir, hlog, hlevel, hknown]
  by_cases h1 : flag ∈ dirFlags
  · simp [h1, not_mem_levelFlags (.inl h1)]
  · by_cases h2 : flag ∈ logFlags
    · simp [h1, h2, not_mem_levelFlags (.inr h2)]
    · by_cases h3 : flag ∈ levelFlags
      · cases hv : Severity.ofName? value with
        | none => simp [h1, h2, h3, Severity.ofName?_eq_none_iff.1 hv]
        | some level => simp [h1, h2, h3, Severity.mem_names_of_ofName? hv]
      · simp [h1, h2, h3]

/-- What can be read of the pairs: those in front of the first with a fault. -/
def readable (ps : List (String × String)) : List (String × String) := ps.takeWhile (fault? · = none)

/-- Why the pairs are not accepted: the leftmost fault, or no base directory at the end. -/
def refusal? (o : Options) (ps : List (String × String)) : Option OptionError :=
  (ps.findSome? fault?).or (if (ps.foldl take o).baseDir = "" then some .missingBaseDir else none)

theorem readPairs_eq (o : Options) (words : List String) :
    o.readPairs words = ⟨(readable (pairs words)).foldl take o, refusal? o (pairs words)⟩ := by
  fun_induction readPairs o words with
  | case1 o flag value rest o' hset ih =>
    rw [set_eq] at hset
    cases hf : fault? (flag, value) with
    | some e => simp [hf] at hset
    | none =>
      have ho : o.take (flag, value) = o' := by simpa [hf] using hset
      rw [ih]
      simp [pairs, readable, refusal?, hf, ho]
  | case2 o flag value rest e hset =>
    rw [set_eq] at hset
    cases hf : fault? (flag, value) with
    | none => simp [hf] at hset
    | some e' =>
      have he : e' = e := by simpa [hf] using hset
      simp [pairs, readable, refusal?, hf, he]
  | case3 words o hpairs =>
    rw [pairs.eq_2 words hpairs]
    rfl

theorem ofCommandLine_eq (argv : List String) : ofCommandLine argv =
    if argv.length % 2 = 0 then ⟨{}, some .unpairedFlag⟩
    else ⟨(readable (pairs argv.tail)).foldl take {}, refusal? {} (pairs argv.tail)⟩ := by
  rw [ofCommandLine, readPairs_eq]

/-! What the pairs set in the end. -/

theorem baseDir_take (o : Options) (pair : String × String) :
    (o.take pair).baseDir = if pair.1 ∈ dirFlags then pair.2 else o.baseDir := by
  unfold take
  split
  · rfl
  · split
    · rfl
    · split <;> rfl

theorem logFile_take (o : Options) (pair : String × String) :
    (o.take pair).logFile = if pair.1 ∈ logFlags then pair.2 else o.logFile := by
  unfold take
  split
  · rw [if_neg (not_mem_logFlags ‹_›)]
  · split
    · rfl
    · split <;> rfl

theorem fault?_eq_none {pair : String × String} : fault? pair = none ↔
    pair.1 ∈ knownFlags ∧ (pair.1 ∈ levelFlags → pair.2 ∈ Severity.names) := by
  unfold fault?
  split
  · simp [*]
  · split <;> simp_all

theorem name_take {pair : String × String} (hpair : fault? pair = none) (o : Options) :
    (o.take pair).logLevel.name = if pair.1 ∈ levelFlags then pair.2 else o.logLevel.name := by
  unfold take
  split
  · rw [if_neg (not_mem_levelFlags (.inl ‹_›))]
  · split
    · rw [if_neg (not_mem_levelFlags (.inr ‹_›))]
    · split
      · rename_i hlevel
        cases hv : Severity.ofName? pair.2 with
        | none => exact absurd ((fault?_eq_none.1 hpair).2 hlevel) (Severity.ofName?_eq_none_iff.1 hv)
        | some level => exact (Severity.ofName?_eq_some_iff.1 hv).symm
      · rfl

theorem lastValue?_cons (flags : List String) (pair : String × String) (ps : List (String × String)) :
    lastValue? flags (pair :: ps) =
      (lastValue? flags ps).or (if pair.1 ∈ flags then some pair.2 else none) := by
  unfold lastValue?
  by_cases hpair : pair.1 ∈ flags
  · rw [List.filter_cons_of_pos (by simpa using hpair), List.getLast?_cons, if_pos hpair]
    cases (ps.filter (·.1 ∈ flags)).getLast? <;> rfl
  · rw [List.filter_cons_of_neg (by simpa using hpair), if_neg hpair, Option.or_none]

/-- A field that each pair with one of the flags sets, and every other pair keeps, has its last value. -/
theorem foldl_take (field : Options → String) {flags : List String} {ps : List (String × String)}
    (hfield : ∀ pair ∈ ps, ∀ o, field (o.take pair) = if pair.1 ∈ flags then pair.2 else field o)
    (o : Options) : field (ps.foldl take o) = (lastValue? flags ps).getD (field o) := by
  induction ps generalizing o with
  | nil => rfl
  | cons pair ps ih =>
    rw [List.foldl_cons, ih (fun e he => hfield e (List.mem_cons_of_mem _ he)), lastValue?_cons,
      hfield pair List.mem_cons_self]
    cases lastValue? flags ps with
    | some value => rfl
    | none => split <;> rfl

theorem baseDir_foldl (ps : List (String × String)) (o : Options) :
    (ps.foldl take o).baseDir = (lastValue? dirFlags ps).getD o.baseDir :=
  foldl_take (·.baseDir) (fun pair _ o => baseDir_take o pair) o

theorem readable_eq_self {ps : List (String × String)} (hps : ∀ pair ∈ ps, fault? pair = none) :
    readable ps = ps :=
  List.takeWhile_eq_self_iff.2 (by simpa using hps)

theorem readable_of_fault {before after : List (String × String)} {pair : String × String} {e : OptionError}
    (hbefore : ∀ p ∈ before, fault? p = none) (hpair : fault? pair = some e) :
    readable (before ++ pair :: after) = before := by
  rw [readable, List.takeWhile_append_of_pos (by simpa using hbefore),
    List.takeWhile_cons_of_neg (by simp [hpair]), List.append_nil]

theorem refusal?_of_fault {before after : List (String × String)} {pair : String × String} {e : OptionError}
    (o : Options) (hbefore : ∀ p ∈ before, fault? p = none) (hpair : fault? pair = some e) :
    refusal? o (before ++ pair :: after) = some e := by
  have hnone : before.findSome? fault? = none := List.findSome?_eq_none_iff.2 hbefore
  simp [refusal?, hnone, hpair]

theorem refusal?_eq_none {o : Options} {ps : List (String × String)} : refusal? o ps = none ↔
    (∀ pair ∈ ps, fault? pair = none) ∧ (lastValue? dirFlags ps).getD o.baseDir ≠ "" := by
  simp [refusal?, Option.or_eq_none_iff, baseDir_foldl]

theorem error_eq_none {argv : List String} : (ofCommandLine argv).error = none ↔
    argv.length % 2 = 1 ∧ (∀ pair ∈ pairs argv.tail, fault? pair = none) ∧
      (lastValue? dirFlags (pairs argv.tail)).getD "" ≠ "" := by
  rw [ofCommandLine_eq]
  split
  · simp [*]
  · rw [refusal?_eq_none]
    exact ⟨fun h => ⟨by omega, h⟩, And.right⟩

theorem options_of_accepted {argv : List String} (h : (ofCommandLine argv).error = none) :
    (ofCommandLine argv).options = (pairs argv.tail).foldl take {} := by
  obtain ⟨hodd, hps, -⟩ := error_eq_none.1 h
  rw [ofCommandLine_eq, if_neg (by omega), readable_eq_self hps]

theorem baseDir_ne_of_accepted {argv : List String} (h : (ofCommandLine argv).error = none) :
    (ofCommandLine argv).options.baseDir ≠ "" := by
  rw [options_of_accepted h, baseDir_foldl]
  exact (error_eq_none.1 h).2.2

/-! Where the pairs stand among the words. -/

theorem getElem?_pairs (words : List String) (i : Nat) : (pairs words)[i]? =
    (words[2 * i]?).bind fun flag => (words[2 * i + 1]?).map (flag, ·) := by
  fun_induction pairs words generalizing i with
  | case1 flag value rest ih =>
    cases i with
    | zero => rfl
    | succ i => simpa [Nat.mul_succ] using ih i
  | case2 words hwords =>
    match words, i with
    | [], i => simp
    | [word], 0 => rfl
    | [word], i + 1 => simp [Nat.mul_succ]
    | flag :: value :: rest, i => exact absurd rfl (hwords flag value rest)

theorem mem_pairs {words : List String} {flag value : String} : (flag, value) ∈ pairs words ↔
    ∃ i, words[2 * i]? = some flag ∧ words[2 * i + 1]? = some value := by
  simp [List.mem_iff_getElem?, getElem?_pairs, Option.bind_eq_some_iff]

theorem forall_mem_pairs {argv : List String} {P : String → String → Prop} :
    (∀ pair ∈ pairs argv.tail, P pair.1 pair.2) ↔ ∀ i flag value,
      argv[2 * i + 1]? = some flag → argv[2 * i + 2]? = some value → P flag value := by
  constructor
  · intro hps i flag value hflag hvalue
    exact hps (flag, value) (mem_pairs.2 ⟨i, by rwa [List.getElem?_tail], by rwa [List.getElem?_tail]⟩)
  · rintro hwords ⟨flag, value⟩ hpair
    obtain ⟨i, hflag, hvalue⟩ := mem_pairs.1 hpair
    rw [List.getElem?_tail] at hflag hvalue
    exact hwords i flag value hflag hvalue

theorem forall_mem_pairs_flag {argv : List String} (hodd : argv.length % 2 = 1) {P : String → Prop} :
    (∀ pair ∈ pairs argv.tail, P pair.1) ↔ ∀ i flag, argv[2 * i + 1]? = some flag → P flag := by
  refine (forall_mem_pairs (P := fun flag _ => P flag)).trans ⟨fun hwords i flag hflag => ?_,
    fun hwords i flag _ hflag _ => hwords i flag hflag⟩
  obtain ⟨hlen, -⟩ := List.getElem?_eq_some_iff.1 hflag
  exact hwords i flag argv[2 * i + 2] hflag (List.getElem?_eq_getElem (by omega))

theorem accepted_iff {argv : List String} : (ofCommandLine argv).error = none ↔ argv.length % 2 = 1 ∧
    (∀ i flag, argv[2 * i + 1]? = some flag → flag ∈ knownFlags) ∧
    (∀ i flag value, argv[2 * i + 1]? = some flag → argv[2 * i + 2]? = some value →
      flag ∈ levelFlags → value ∈ Severity.names) ∧
    ∃ dir, lastValue? dirFlags (pairs argv.tail) = some dir ∧ dir ≠ "" := by
  have hdir : (lastValue? dirFlags (pairs argv.tail)).getD "" ≠ "" ↔
      ∃ dir, lastValue? dirFlags (pairs argv.tail) = some dir ∧ dir ≠ "" := by
    cases lastValue? dirFlags (pairs argv.tail) <;> simp
  rw [error_eq_none, hdir]
  refine and_congr_right fun hodd => ?_
  rw [← forall_mem_pairs_flag hodd,
    ← forall_mem_pairs (P := fun flag value => flag ∈ levelFlags → value ∈ Severity.names), ← and_assoc]
  refine and_congr_left fun _ => ?_
  simp only [fault?_eq_none, imp_and, forall_and]

theorem ofCommandLine_grammar (argv : List String) :
    ((ofCommandLine argv).error = none ↔ argv.length % 2 = 1 ∧
      (∀ i flag, argv[2 * i + 1]? = some flag → flag ∈ knownFlags) ∧
      (∀ i flag value, argv[2 * i + 1]? = some flag → argv[2 * i + 2]? = some value →
        flag ∈ levelFlags → value ∈ Severity.names) ∧
      ∃ dir, lastValue? dirFlags (pairs argv.tail) = some dir ∧ dir ≠ "") ∧
    let r := ofCommandLine argv
    let ps := pairs argv.tail
    (r.error = none → r.printed argv = "" ∧
      r.options.baseDir = (lastValue? dirFlags ps).getD "" ∧
      r.options.logFile = (lastValue? logFlags ps).getD "crashstore.log" ∧
      r.options.logLevel.name = (lastValue? levelFlags ps).getD "info") ∧
    (∀ e, r.error = some e → r.printed argv = e.message ++ usage (argv.head?.getD "crashstore")) ∧
    (argv.length % 2 = 0 → r = ⟨{}, some .unpairedFlag⟩) ∧
    (argv.length % 2 = 1 → ∀ before pair after e, ps = before ++ pair :: after →
      (∀ p ∈ before, fault? p = none) → fault? pair = some e → r = ⟨before.foldl take {}, some e⟩) ∧
    (argv.length % 2 = 1 → (∀ p ∈ ps, fault? p = none) → (lastValue? dirFlags ps).getD "" = "" →
      r = ⟨ps.foldl take {}, some .missingBaseDir⟩) := by
  refine ⟨accepted_iff, ?_⟩
  intro r ps
  have hodd (h : argv.length % 2 = 1) : r = ⟨(readable ps).foldl take {}, refusal? {} ps⟩ :=
    (ofCommandLine_eq argv).trans (if_neg (by omega))
  refine ⟨fun h => ⟨?silent, ?baseDir, ?logFile, ?logLevel⟩, fun e h => ?said,
    fun heven => (ofCommandLine_eq argv).trans (if_pos heven),
    fun h before pair after e hps hbefore hpair => ?fault, fun h hps hdir => ?missing⟩
  case silent => simp only [OptionReading.printed, h]
  case baseDir => rw [options_of_accepted h, baseDir_foldl]
  case logFile =>
    rw [options_of_accepted h]
    exact foldl_take (·.logFile) (fun pair _ o => logFile_take o pair) {}
  case logLevel =>
    rw [options_of_accepted h]
    exact foldl_take (·.logLevel.name) (fun pair hpair => name_take ((error_eq_none.1 h).2.1 pair hpair)) {}
  case said => simp only [OptionReading.printed, h, OptionError.report, programName]
  case fault =>
    rw [hodd h, hps, readable_of_fault hbefore hpair, refusal?_of_fault {} hbefore hpair]
  case missing =>
    have hnone : ps.findSome? fault? = none := List.findSome?_eq_none_iff.2 hps
    have hdir' : (ps.foldl take {}).baseDir = "" := (baseDir_foldl ps {}).trans hdir
    rw [hodd h, readable_eq_self hps, refusal?, hnone, if_pos hdir', Option.none_or]

/-- Either spelling of a flag counts, and the last value; the pair that cannot be read ends the reading. -/
example : (ofCommandLine ["crashstore", "-d", "a", "-v", "fatal", "--dir", "b"]) =
      ⟨⟨"b", "crashstore.log", .fatal⟩, none⟩ ∧
    (ofCommandLine ["crashstore", "-d", "a", "-v", "loud", "--dir", "b"]) =
      ⟨⟨"a", "crashstore.log", .info⟩, some (.unknownLevel "loud")⟩ := by decide

end Options
end CrashVault
