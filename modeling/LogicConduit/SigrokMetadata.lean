import LogicConduit.SigrokImport
namespace LogicConduit

/-- A key that a line gives back as it was written. -/
def isPlainKey : Text → Bool
  | [] => false
  | c :: rest =>
    !isWhiteSpace c && c ≠ '#' && c ≠ '[' && trim (c :: rest) = c :: rest && !(c :: rest).contains '='

def fieldValue (value : Text) : Text := trim (value.rdropWhile isWhiteSpace)

theorem trim_fieldLine {c : Char} {rest : Text} (hc : isWhiteSpace c = false) (value : Text) :
    trim (fieldLine (c :: rest) value) = fieldLine (c :: rest) (value.rdropWhile isWhiteSpace) := by
  have hfront : (fieldLine (c :: rest) value).dropWhile isWhiteSpace = fieldLine (c :: rest) value :=
    List.dropWhile_cons_of_neg (by simp [hc])
  rw [trim, hfront, fieldLine, rdropWhile_append_cons (by decide)]
  rfl

theorem iniLine_field {key : Text} (hkey : isPlainKey key = true) (sections : TextMap (TextMap Text))
    (name value : Text) :
    iniLine (sections, name) (trim (fieldLine key value)) =
      (sections.insert name ((sections[name]?.getD ∅).insert key (fieldValue value)), name) := by
  cases key with
  | nil => cases hkey
  | cons c rest =>
    simp only [isPlainKey, Bool.and_eq_true, Bool.not_eq_true', decide_eq_true_eq, ne_eq, List.contains_eq_mem,
      decide_eq_false_iff_not] at hkey
    obtain ⟨⟨⟨⟨hblank, hcomment⟩, hbracket⟩, htrim⟩, hseparator⟩ := hkey
    have hhead : ¬(fieldLine (c :: rest) (value.rdropWhile isWhiteSpace) = [] ∨
        (fieldLine (c :: rest) (value.rdropWhile isWhiteSpace)).head? = some '#') := by
      simp [fieldLine, hcomment]
    have hsection : stripFront ['['] (fieldLine (c :: rest) (value.rdropWhile isWhiteSpace)) = none := by
      simp [stripFront, fieldLine, List.isPrefixOf, Ne.symm hbracket]
    have hsplit : splitOnce '=' (fieldLine (c :: rest) (value.rdropWhile isWhiteSpace)) =
        some (c :: rest, value.rdropWhile isWhiteSpace) := splitOnce_append hseparator _
    rw [trim_fieldLine hblank, iniLine, if_neg hhead, hsection]
    simp only [Option.bind_none, hsplit, htrim, fieldValue]

theorem foldl_iniLine {fields : List (Text × Text)} (hkeys : ∀ field ∈ fields, isPlainKey field.1 = true)
    (sections : TextMap (TextMap Text)) (name : Text) :
    ∃ result, (fields.map fun field => trim (fieldLine field.1 field.2)).foldl iniLine (sections, name) = (result, name) ∧
      result[name]?.getD ∅ = TextMap.insertAll (sections[name]?.getD ∅)
        (fields.map fun field => (field.1, fieldValue field.2)) ∧
      ∀ other, other ≠ name → result[other]? = sections[other]? := by
  induction fields generalizing sections with
  | nil => exact ⟨sections, rfl, rfl, fun _ _ => rfl⟩
  | cons field fields ih =>
    obtain ⟨result, hresult, htable, hothers⟩ := ih (fun other hother => hkeys other (List.mem_cons_of_mem _ hother))
      (sections.insert name ((sections[name]?.getD ∅).insert field.1 (fieldValue field.2)))
    refine ⟨result, ?_, ?_, ?_⟩
    · rw [List.map_cons, List.foldl_cons, iniLine_field (hkeys field List.mem_cons_self)]
      exact hresult
    · rw [htable, TextMap.getElem?_insert, if_pos rfl]
      rfl
    · intro other hother
      rw [hothers other hother, TextMap.getElem?_insert, if_neg (Ne.symm hother)]

section Metadata

variable {floats : FloatOps} {metadata : CaptureTimelineMetadata floats}

theorem probeKey_plain (channel : Nat) : isPlainKey ("probe".toList ++ decimal channel) = true := by
  have hblank : ∀ c ∈ "probe".toList ++ decimal channel, isWhiteSpace c = false := by
    intro c hc
    rcases List.mem_append.mp hc with hprobe | hdigit
    · exact not_blank_of_all (show "probe".toList.all (fun c => !isWhiteSpace c) = true from rfl) c hprobe
    · exact digit_not_blank (isDigit_of_mem_decimal hdigit)
  have hseparator : '=' ∉ "probe".toList ++ decimal channel := by
    intro hmem
    rcases List.mem_append.mp hmem with hprobe | hdigit
    · exact absurd hprobe (by decide)
    · exact absurd (isDigit_of_mem_decimal hdigit) (by decide)
  have htrim := trim_eq_self_of_all hblank
  have hcons : "probe".toList ++ decimal channel = 'p' :: ("robe".toList ++ decimal channel) := rfl
  rw [hcons] at htrim hseparator ⊢
  simp only [isPlainKey, htrim, List.contains_eq_mem, hseparator]
  decide

theorem deviceFields_plain : ∀ field ∈ deviceFields metadata, isPlainKey field.1 = true := by
  intro field hfield
  simp only [deviceFields, List.mem_append] at hfield
  rcases hfield with (hfixed | htrigger) | hprobe
  · simp only [List.mem_cons, List.not_mem_nil, or_false] at hfixed
    rcases hfixed with rfl | rfl | rfl | rfl | rfl <;> rfl
  · obtain ⟨sample, -, rfl⟩ := List.mem_map.mp htrigger
    rfl
  · obtain ⟨channel, hchannel, rfl⟩ := List.mem_mapIdx.mp hprobe
    exact probeKey_plain _

def OneLine (text : Text) : Prop := '\n' ∉ text ∧ '\r' ∉ text

instance (text : Text) : Decidable (OneLine text) := inferInstanceAs (Decidable (_ ∧ _))

theorem OneLine.of_digits {text : Text} (h : ∀ c ∈ text, c.isDigit = true ∨ c = '.') : OneLine text := by
  constructor
  · intro hmem
    exact absurd (h _ hmem) (by decide)
  · intro hmem
    exact absurd (h _ hmem) (by decide)

theorem OneLine.decimal (n : Nat) : OneLine (decimal n) :=
  OneLine.of_digits fun _ hc => Or.inl (isDigit_of_mem_decimal hc)

theorem OneLine.append {front back : Text} (hfront : OneLine front) (hback : OneLine back) :
    OneLine (front ++ back) :=
  ⟨fun h => (List.mem_append.mp h).elim hfront.1 hback.1, fun h => (List.mem_append.mp h).elim hfront.2 hback.2⟩

theorem OneLine.fieldLine {key value : Text} (hkey : OneLine key) (hvalue : OneLine value) :
    OneLine (fieldLine key value) :=
  hkey.append ((show OneLine ['='] by decide).append hvalue)

theorem deviceFields_oneLine (hfloats : floats.Lawful) (hnames : ∀ name ∈ metadata.channelNames, OneLine name) :
    ∀ field ∈ deviceFields metadata, OneLine (fieldLine field.1 field.2) := by
  intro field hfield
  simp only [deviceFields, List.mem_append] at hfield
  rcases hfield with (hfixed | htrigger) | hprobe
  · simp only [List.mem_cons, List.not_mem_nil, or_false] at hfixed
    rcases hfixed with rfl | rfl | rfl | rfl | rfl
    · decide
    · exact (show OneLine "total probes".toList by decide).fieldLine (OneLine.decimal _)
    · decide
    · have hrate := OneLine.of_digits (hfloats.display_plain _ metadata.rate_valid)
      exact (show OneLine "samplerate".toList by decide).fieldLine (hrate.append (by decide))
    · exact (show OneLine "unitsize".toList by decide).fieldLine (OneLine.decimal _)
  · obtain ⟨sample, -, rfl⟩ := List.mem_map.mp htrigger
    exact (show OneLine "trigger sample".toList by decide).fieldLine (OneLine.decimal _)
  · obtain ⟨channel, hchannel, rfl⟩ := List.mem_mapIdx.mp hprobe
    exact OneLine.fieldLine (OneLine.append (by decide) (OneLine.decimal _)) (hnames _ (List.getElem_mem hchannel))

def deviceTable (metadata : CaptureTimelineMetadata floats) : TextMap Text :=
  TextMap.insertAll ∅ ((deviceFields metadata).map fun field => (field.1, fieldValue field.2))

theorem parseIni_metadataText (hfloats : floats.Lawful) (hnames : ∀ name ∈ metadata.channelNames, OneLine name) :
    (parseIni (metadataText metadata))["device 1".toList]?.getD ∅ = deviceTable metadata ∧
      ∀ other, other ≠ "device 1".toList → other ≠ "global".toList →
        (parseIni (metadataText metadata))[other]? = none := by
  have hlines : lines (metadataText metadata) = metadataLines metadata := by
    apply lines_written
    intro line hline
    rcases List.mem_append.mp hline with hfixed | hfield
    · simp only [List.mem_cons, List.not_mem_nil, or_false] at hfixed
      rcases hfixed with rfl | rfl | rfl <;> decide
    · obtain ⟨field, hmem, rfl⟩ := List.mem_map.mp hfield
      exact deviceFields_oneLine hfloats hnames field hmem
  -- the section `global` has one field
  have hglobal := iniLine_field (show isPlainKey "sigrok version".toList = true by decide) ∅ "global".toList "dsl".toList
  obtain ⟨result, hresult, htable, hothers⟩ := @foldl_iniLine (deviceFields metadata) deviceFields_plain
    (Std.TreeMap.insert ∅ "global".toList ((((∅ : TextMap (TextMap Text))["global".toList]?).getD ∅).insert
      "sigrok version".toList (fieldValue "dsl".toList))) "device 1".toList
  have hparse : parseIni (metadataText metadata) = result := by
    rw [parseIni, hlines, metadataLines, List.map_append, List.foldl_append, List.map_map]
    simp only [List.map_cons, List.map_nil, List.foldl_cons, List.foldl_nil]
    have hfirst : iniLine (∅, []) (trim "[global]".toList) = (∅, "global".toList) := rfl
    rw [hfirst, hglobal]
    have hdevice : ∀ sections, iniLine (sections, "global".toList) (trim "[device 1]".toList) =
        (sections, "device 1".toList) := fun _ => rfl
    rw [hdevice]
    exact congrArg Prod.fst hresult
  rw [hparse]
  constructor
  · rw [htable, TextMap.getElem?_insert, if_neg (by decide)]
    simp [deviceTable]
  · intro other hdevice hglobal
    rw [hothers other hdevice, TextMap.getElem?_insert, if_neg (Ne.symm hglobal)]
    simp

theorem fieldValue_eq_self {value : Text} (hhead : ∀ c ∈ value.head?, isWhiteSpace c = false)
    (hlast : ∀ c ∈ value.getLast?, isWhiteSpace c = false) : fieldValue value = value := by
  have hend : value.rdropWhile isWhiteSpace = value := by
    rw [List.rdropWhile_eq_self_iff]
    intro hne
    rw [hlast _ (List.getLast?_eq_some_getLast hne)]
    exact Bool.false_ne_true
  rw [fieldValue, hend, trim_eq_self hhead hlast]

theorem fieldValue_decimal (n : Nat) : fieldValue (decimal n) = decimal n := by
  apply fieldValue_eq_self
  · intro c hc
    exact digit_not_blank (isDigit_of_mem_decimal (List.mem_of_head? hc))
  · intro c hc
    exact digit_not_blank (isDigit_of_mem_decimal (List.mem_of_getLast? hc))

/-- The keys of the device section that stand in front of the trigger and the probes. -/
def fixedKeys : List Text :=
  ["capturefile".toList, "total probes".toList, "total analog".toList, "samplerate".toList, "unitsize".toList]

theorem fixedKeys_ne : ∀ key ∈ fixedKeys, key ≠ "trigger sample".toList ∧ key.head? ≠ some 'p' := by decide

def probeFields (names : List Text) : List (Text × Text) :=
  names.mapIdx fun channel name => ("probe".toList ++ decimal (channel + 1), name)

theorem probeFields_head {names : List Text} {field : Text × Text} (h : field ∈ probeFields names) :
    field.1.head? = some 'p' := by
  obtain ⟨channel, -, rfl⟩ := List.mem_mapIdx.mp h
  rfl

theorem probeFields_nodup (names : List Text) : ((probeFields names).map Prod.fst).Nodup := by
  have hkeys : (probeFields names).map Prod.fst =
      (List.range names.length).map fun channel => "probe".toList ++ decimal (channel + 1) := by
    apply List.ext_getElem
    · simp [probeFields]
    · intro i hi _
      simp [probeFields]
  rw [hkeys]
  apply List.Nodup.map _ List.nodup_range
  intro i j heq
  have hdecimal := decimal_injective (List.append_cancel_left heq)
  omega

theorem deviceFields_nodup (metadata : CaptureTimelineMetadata floats) :
    ((deviceFields metadata).map Prod.fst).Nodup := by
  have htrigger : ∀ key ∈ (metadata.triggerSample.toList.map fun sample =>
      ("trigger sample".toList, decimal sample)).map Prod.fst, key = "trigger sample".toList := by
    intro key hkey
    obtain ⟨field, hfield, rfl⟩ := List.mem_map.mp hkey
    obtain ⟨sample, -, rfl⟩ := List.mem_map.mp hfield
    rfl
  rw [deviceFields, List.map_append, List.map_append, List.nodup_append, List.nodup_append]
  refine ⟨⟨(by decide : fixedKeys.Nodup), ?_, ?_⟩, probeFields_nodup metadata.channelNames, ?_⟩
  · cases metadata.triggerSample <;> simp
  · intro key hkey other hother heq
    exact (fixedKeys_ne key hkey).1 (heq.trans (htrigger other hother))
  · intro key hkey other hother heq
    obtain ⟨field, hfield, rfl⟩ := List.mem_map.mp hother
    have hhead := probeFields_head hfield
    rw [← heq] at hhead
    rcases List.mem_append.mp hkey with hmem | hmem
    · exact (fixedKeys_ne key hmem).2 hhead
    · rw [htrigger key hmem] at hhead
      exact absurd hhead (by decide)

/-- What an import looks up in the device section. -/
structure DeviceValues (metadata : CaptureTimelineMetadata floats) (values : TextMap Text) : Prop where
  capturefile : values["capturefile".toList]? = some "logic-1".toList
  totalProbes : values["total probes".toList]? = some (decimal metadata.channelNames.length)
  samplerate : values["samplerate".toList]? = some (floats.display metadata.sampleRateHz ++ " Hz".toList)
  unitsize : values["unitsize".toList]? = some (decimal ((metadata.channelNames.length + 7) / 8))
  triggerSample : values["trigger sample".toList]? = metadata.triggerSample.map decimal

theorem deviceTable_lookup {key : Text} (value : Text) (h : (key, value) ∈ deviceFields metadata) :
    (deviceTable metadata)[key]? = some (fieldValue value) := by
  apply TextMap.getElem?_insertAll_of_mem
  · rw [List.map_map]
    exact deviceFields_nodup metadata
  · exact List.mem_map_of_mem (f := fun field => (field.1, fieldValue field.2)) h

theorem rate_not_blank (hfloats : floats.Lawful) (metadata : CaptureTimelineMetadata floats) :
    ∀ c ∈ floats.display metadata.sampleRateHz, isWhiteSpace c = false := by
  intro c hc
  rcases hfloats.display_plain _ metadata.rate_valid c hc with hdigit | rfl
  · exact digit_not_blank hdigit
  · decide

theorem deviceTable_values (hfloats : floats.Lawful) : DeviceValues metadata (deviceTable metadata) := by
  constructor
  · rw [deviceTable_lookup ("logic-1".toList) (by simp [deviceFields])]
    rfl
  · rw [deviceTable_lookup (decimal metadata.channelNames.length) (by simp [deviceFields]), fieldValue_decimal]
  · rw [deviceTable_lookup (floats.display metadata.sampleRateHz ++ " Hz".toList) (by simp [deviceFields]),
      fieldValue_eq_self]
    · intro c hc
      rw [List.head?_append_of_ne_nil _ (hfloats.display_ne _ metadata.rate_valid)] at hc
      exact rate_not_blank hfloats metadata c (List.mem_of_head? hc)
    · intro c hc
      rw [List.getLast?_append_of_ne_nil _ (by decide)] at hc
      cases hc
      rfl
  · rw [deviceTable_lookup (decimal ((metadata.channelNames.length + 7) / 8)) (by simp [deviceFields]),
      fieldValue_decimal]
  · cases htrigger : metadata.triggerSample with
    | none =>
      apply TextMap.getElem?_insertAll_of_not_mem
      intro field hfield heq
      obtain ⟨written, hwritten, rfl⟩ := List.mem_map.mp hfield
      simp only [deviceFields, htrigger, Option.toList_none, List.map_nil, List.append_nil] at hwritten
      rcases List.mem_append.mp hwritten with hmem | hmem
      · exact (fixedKeys_ne written.1 (List.mem_map_of_mem hmem)).1 heq
      · have hhead := probeFields_head hmem
        rw [show written.1 = "trigger sample".toList from heq] at hhead
        exact absurd hhead (by decide)
    | some sample =>
      rw [deviceTable_lookup (decimal sample) (by simp [deviceFields, htrigger]), fieldValue_decimal]
      rfl

variable {archive : CaptureArchive} {entries : List ArchiveEntry} {values : TextMap Text}

theorem readArchiveText_held {name text : Text} (h : archive.Holds entries) (hmem : (name, textBytes text) ∈ entries) :
    readArchiveText archive name = .ok text := by
  have hread := h.data _ hmem
  simp only [readArchiveText, hread, textBytes, fromUtf8_utf8Bytes, bind, Except.bind, pure, Except.pure,
    String.toList_ofList]

theorem checkVersion_held (h : archive.Holds entries) (hmem : ("version".toList, textBytes "2".toList) ∈ entries) :
    checkVersion archive = .ok () := by
  have hread := readArchiveText_held h hmem
  simp only [checkVersion, hread, bind, Except.bind]
  rfl

theorem deviceSection_held (hfloats : floats.Lawful) (hnames : ∀ name ∈ metadata.channelNames, OneLine name)
    (h : archive.Holds entries) (hmem : ("metadata".toList, textBytes (metadataText metadata)) ∈ entries) :
    deviceSection archive = .ok (deviceTable metadata) := by
  have hread := readArchiveText_held h hmem
  obtain ⟨htable, hothers⟩ := parseIni_metadataText hfloats hnames
  have hvalues := (deviceTable_values hfloats : DeviceValues metadata _)
  generalize hsections : parseIni (metadataText metadata) = sections at htable hothers
  have hcontains : (deviceTable metadata).contains "capturefile".toList = true := by
    rw [Std.TreeMap.contains_eq_isSome_getElem?, hvalues.capturefile]
    rfl
  have hdevice : sections["device 1".toList]? = some (deviceTable metadata) := by
    cases hsection : sections["device 1".toList]? with
    | none =>
      rw [hsection, Option.getD_none] at htable
      rw [← htable] at hcontains
      simp at hcontains
    | some table =>
      rw [hsection, Option.getD_some] at htable
      rw [htable]
  have hfind : ∃ item, sections.toList.find? isDevice = some item ∧ item.2 = deviceTable metadata := by
    have hthere := Std.TreeMap.mem_toList_iff_getElem?_eq_some.mpr hdevice
    have hfits : isDevice ("device 1".toList, deviceTable metadata) = true := by
      rw [isDevice, hcontains, Bool.and_true]
      rfl
    cases hfound : sections.toList.find? isDevice with
    | none => exact absurd hfits (List.find?_eq_none.mp hfound _ hthere)
    | some item =>
      have hsection := Std.TreeMap.mem_toList_iff_getElem?_eq_some.mp (List.mem_of_find?_eq_some hfound)
      have hpasses : isDevice item = true := List.find?_some hfound
      have hnamed := (Bool.and_eq_true_iff.mp hpasses).1
      have hname : item.1 = "device 1".toList := by
        by_contra hne
        rw [hothers item.1 hne] at hsection
        · cases hsection
        · intro hglobal
          rw [hglobal] at hnamed
          exact absurd hnamed (by decide)
      rw [hname, hdevice] at hsection
      exact ⟨item, rfl, (Option.some.inj hsection).symm⟩
  obtain ⟨item, hitem, heq⟩ := hfind
  simp only [deviceSection, hread, bind, Except.bind, hsections, hitem, heq, pure, Except.pure]

theorem parsedField_decimal {key : Text} {n : Nat} (h : values[key]? = some (decimal n)) (hn : n < 2 ^ 64) :
    parsedField values key = .ok n := by
  simp only [parsedField, required, h, bind, Except.bind, parseUnsigned_decimal hn, pure, Except.pure]

theorem logicLayout_held (h : DeviceValues metadata values) {minimumChannels : Nat}
    (hcount : metadata.channelNames.length < 2 ^ 32) (hpos : 0 < metadata.channelNames.length)
    (hminimum : minimumChannels ≤ metadata.channelNames.length) :
    logicLayout values minimumChannels =
      .ok (metadata.channelNames.length, (metadata.channelNames.length + 7) / 8) := by
  simp only [logicLayout, parsedField_decimal h.totalProbes (by omega), parsedField_decimal h.unitsize (by omega),
    bind, Except.bind, pure, Except.pure]
  rw [if_neg (by omega), if_neg (by omega)]

theorem sampleRateField_held (hfloats : floats.Lawful) (h : DeviceValues metadata values) :
    sampleRateField floats values =
      .ok (floats.display metadata.sampleRateHz ++ " Hz".toList, metadata.sampleRateHz) := by
  have hsplit : splitWhitespace (floats.display metadata.sampleRateHz ++ " Hz".toList) =
      [floats.display metadata.sampleRateHz, "Hz".toList] :=
    @splitWhitespace_pair _ _ ' ' (by decide) (rate_not_blank hfloats metadata) (not_blank_of_all rfl)
      (hfloats.display_ne _ metadata.rate_valid) (by decide)
  have hparse : parseSampleRate floats (floats.display metadata.sampleRateHz ++ " Hz".toList) =
      some metadata.sampleRateHz := by
    rw [parseSampleRate, hsplit]
    simp only [hfloats.parse_display _ metadata.rate_valid, Option.bind_some]
    rw [if_neg (by decide), if_neg (by decide), if_neg (by decide), if_pos trivial,
      hfloats.mul_one _ metadata.rate_valid]
  simp only [sampleRateField, required, h.samplerate, hparse, bind, Except.bind, pure, Except.pure]

theorem triggerField_held (h : DeviceValues metadata values) : triggerField values = .ok metadata.triggerSample := by
  rw [triggerField, h.triggerSample]
  cases htrigger : metadata.triggerSample with
  | none => rfl
  | some sample =>
    have hlt := metadata.trigger_lt sample htrigger
    simp only [Option.map_some, parseUnsigned_decimal hlt]

end Metadata

end LogicConduit
