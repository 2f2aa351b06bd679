import Mesa.Data.Comparison
import Mathlib.Data.List.Perm.Basic

/-!
# EGL configs

The configs of `eglconfig.c` with the functions that validate, match and compare them.  A sum or a
difference of two `EGLint` that is not an `EGLint` is not defined.
-/

namespace Egl

/-- The attributes of a config, which `_eglOffsetOfConfig` maps to the members of `_EGLConfig`. -/
inductive Attr where
  | bufferSize
  | alphaSize
  | blueSize
  | greenSize
  | redSize
  | depthSize
  | stencilSize
  | configCaveat
  | configId
  | level
  | maxPbufferHeight
  | maxPbufferPixels
  | maxPbufferWidth
  | nativeRenderable
  | nativeVisualId
  | nativeVisualType
  | samples
  | sampleBuffers
  | surfaceType
  | transparentType
  | transparentBlueValue
  | transparentGreenValue
  | transparentRedValue
  | bindToTextureRgb
  | bindToTextureRgba
  | minSwapInterval
  | maxSwapInterval
  | luminanceSize
  | alphaMaskSize
  | colorBufferType
  | renderableType
  | matchNativePixmap
  | conformant
  | yInvertedNok
  | framebufferTargetAndroid
  | recordableAndroid
deriving DecidableEq

/-- A config, as `_eglGetConfigKey` sees it. -/
abbrev Config :=
  Attr → ℤ

/-- The numbers of type `EGLint`. -/
def IsEGLint (z : ℤ) : Prop :=
  - 2 ^ 31 ≤ z ∧ z < 2 ^ 31

instance (z : ℤ) : Decidable (IsEGLint z) :=
  inferInstanceAs (Decidable (_ ∧ _))

/-- `a + b`. -/
def plus (a b : ℤ) : Option ℤ :=
  if IsEGLint (a + b) then some (a + b) else none

/-- `a - b`. -/
def minus (a b : ℤ) : Option ℤ :=
  if IsEGLint (a - b) then some (a - b) else none

/-- The bits of an `EGLint`. -/
def bits (z : ℤ) : BitVec 32 :=
  BitVec.ofInt 32 z

def dontCare : ℤ := -1
def eglNone : ℤ := 0x3038
def slowConfig : ℤ := 0x3050
def nonConformantConfig : ℤ := 0x3051
def transparentRgb : ℤ := 0x3052
def rgbBuffer : ℤ := 0x308E
def luminanceBuffer : ℤ := 0x308F
def pbufferBit : BitVec 32 := 0x0001
def pixmapBit : BitVec 32 := 0x0002
def windowBit : BitVec 32 := 0x0004
def vgColorspaceLinearBit : BitVec 32 := 0x0020
def vgAlphaFormatPreBit : BitVec 32 := 0x0040
def multisampleResolveBoxBit : BitVec 32 := 0x0200
def swapBehaviorPreservedBit : BitVec 32 := 0x0400
def openglEsBit : BitVec 32 := 0x0001
def openvgBit : BitVec 32 := 0x0002
def openglEs2Bit : BitVec 32 := 0x0004
def openglBit : BitVec 32 := 0x0008
def openglEs3Bit : BitVec 32 := 0x0040

/-! ### The validation table -/

/-- `enum type`. -/
inductive AttribType where
  | integer
  | boolean
  | bitmask
  | enum
  | pseudo
  | platform
deriving DecidableEq

/-- `enum criterion`. -/
inductive Criterion where
  | exact
  | atleast
  | mask
  | special
  | ignore
deriving DecidableEq

/-- `_eglValidationTable` without the default values. -/
def validationTable : List (Attr × AttribType × Criterion) :=
  [ (.bufferSize, .integer, .atleast),
    (.redSize, .integer, .atleast),
    (.greenSize, .integer, .atleast),
    (.blueSize, .integer, .atleast),
    (.luminanceSize, .integer, .atleast),
    (.alphaSize, .integer, .atleast),
    (.alphaMaskSize, .integer, .atleast),
    (.bindToTextureRgb, .boolean, .exact),
    (.bindToTextureRgba, .boolean, .exact),
    (.colorBufferType, .enum, .exact),
    (.configCaveat, .enum, .exact),
    (.configId, .integer, .exact),
    (.conformant, .bitmask, .mask),
    (.depthSize, .integer, .atleast),
    (.level, .platform, .exact),
    (.maxPbufferWidth, .integer, .ignore),
    (.maxPbufferHeight, .integer, .ignore),
    (.maxPbufferPixels, .integer, .ignore),
    (.maxSwapInterval, .integer, .exact),
    (.minSwapInterval, .integer, .exact),
    (.nativeRenderable, .boolean, .exact),
    (.nativeVisualId, .platform, .ignore),
    (.nativeVisualType, .platform, .exact),
    (.renderableType, .bitmask, .mask),
    (.sampleBuffers, .integer, .atleast),
    (.samples, .integer, .atleast),
    (.stencilSize, .integer, .atleast),
    (.surfaceType, .bitmask, .mask),
    (.transparentType, .enum, .exact),
    (.transparentRedValue, .integer, .exact),
    (.transparentGreenValue, .integer, .exact),
    (.transparentBlueValue, .integer, .exact),
    (.matchNativePixmap, .pseudo, .special),
    (.yInvertedNok, .boolean, .exact),
    (.framebufferTargetAndroid, .boolean, .exact),
    (.recordableAndroid, .boolean, .exact) ]

/-! ### Validation -/

/-- The check of a value by its type, in the loop of `_eglValidateConfig`. -/
def attribValid (attr : Attr) (type : AttribType) (val : ℤ) : Bool :=
  match type with
  | .integer =>
    match attr with
    | .configId => 0 < val
    | .sampleBuffers => val ≤ 1 && 0 ≤ val
    | _ => 0 ≤ val
  | .boolean => val = 1 || val = 0
  | .enum =>
    match attr with
    | .configCaveat => val = eglNone || val = slowConfig || val = nonConformantConfig
    | .transparentType => val = eglNone || val = transparentRgb
    | .colorBufferType => val = rgbBuffer || val = luminanceBuffer
    -- no other attribute has this type
    | _ => true
  | .bitmask =>
    let mask :=
      match attr with
      | .surfaceType =>
        pbufferBit ||| pixmapBit ||| windowBit ||| vgColorspaceLinearBit ||| vgAlphaFormatPreBit |||
          multisampleResolveBoxBit ||| swapBehaviorPreservedBit
      | .renderableType | .conformant =>
        openglEsBit ||| openvgBit ||| openglEs2Bit ||| openglEs3Bit ||| openglBit
      | _ => 0
    bits val &&& ~~~ mask = 0
  | .platform => true
  | .pseudo => val = 0

/-- The sizes of the channels of a config agree with its color buffer type and its buffer size. -/
def channelsValid (conf : Config) : Option Bool :=
  if conf .colorBufferType = rgbBuffer then do
    let sum ← plus (conf .redSize) (conf .greenSize)
    let sum ← plus sum (conf .blueSize)
    let sum ← plus sum (conf .alphaSize)
    return conf .luminanceSize = 0 && sum = conf .bufferSize
  else if conf .colorBufferType = luminanceBuffer then do
    let sum ← plus (conf .luminanceSize) (conf .alphaSize)
    return conf .redSize = 0 && conf .greenSize = 0 && conf .blueSize = 0 && sum = conf .bufferSize
  else
    return true

/-- `_eglValidateConfig`. -/
def validateConfig (conf : Config) (forMatching : Bool) : Option Bool :=
  let valid := validationTable.all fun (attr, type, criterion) =>
    attribValid attr type (conf attr) ||
      forMatching && (conf attr = dontCare || criterion = .special)
  if !valid || forMatching then
    return valid
  else do
    let channels ← channelsValid conf
    return channels &&
      !(conf .sampleBuffers = 0 && conf .samples ≠ 0) &&
      !(bits (conf .surfaceType) &&& windowBit = 0 &&
        (conf .nativeVisualId ≠ 0 || conf .nativeVisualType ≠ eglNone)) &&
      !(bits (conf .surfaceType) &&& pbufferBit = 0 &&
        (conf .bindToTextureRgb ≠ 0 || conf .bindToTextureRgba ≠ 0))

/-- The configs of a driver. -/
structure ValidConfig where
  config : Config
  isEGLint : ∀ attr, IsEGLint (config attr)
  valid : validateConfig config false = some true

/-! ### Matching -/

/-- `_eglMatchConfig`. -/
def matchConfig (conf criteria : Config) : Bool :=
  validationTable.all fun (attr, _, criterion) =>
    criterion = .ignore || criteria attr = dontCare ||
      match criterion with
      | .exact => conf attr = criteria attr
      | .atleast => criteria attr ≤ conf attr
      | .mask => bits (conf attr) &&& bits (criteria attr) = bits (criteria attr)
      | .special | .ignore => true

/-! ### Comparing -/

/-- The sum of the sizes of those channels that the criteria ask for. -/
def colorBits (criteria conf : Config) (channels : List Attr) : Option ℤ :=
  channels.foldlM (fun val attr => if 0 < criteria attr then plus val (conf attr) else some val) 0

/-- The channels of a color buffer type. -/
def colorChannels (type : ℤ) : List Attr :=
  if type = rgbBuffer then [.redSize, .greenSize, .blueSize, .alphaSize]
  else [.luminanceSize, .alphaSize]

def compareAttribsList : List Attr :=
  [.bufferSize, .sampleBuffers, .samples, .depthSize, .stencilSize, .alphaMaskSize]

/-- The loop over `compare_attribs` in `_eglCompareConfigs`, and what is behind it. -/
def compareAttribs (conf1 conf2 : Config) (compareId : Bool) : List Attr → Option ℤ
  | attr :: attribs =>
    if conf1 attr ≠ conf2 attr then minus (conf1 attr) (conf2 attr)
    else compareAttribs conf1 conf2 compareId attribs
  | [] => if compareId then minus (conf1 .configId) (conf2 .configId) else some 0

/-- `_eglCompareConfigs` from the color bits on. -/
def compareSizes (conf1 conf2 : Config) (criteria : Option Config) (compareId : Bool) :
    Option ℤ := do
  let channels := colorChannels (conf1 .colorBufferType)
  let val1 ← criteria.elim (some 0) fun criteria => colorBits criteria conf1 channels
  let val2 ← criteria.elim (some 0) fun criteria => colorBits criteria conf2 channels
  if val1 ≠ val2 then
    minus val2 val1
  else
    compareAttribs conf1 conf2 compareId compareAttribsList

/-- `_eglCompareConfigs`.  The two configs are the `same` when they have one address. -/
def compareConfigs (same : Bool) (conf1 conf2 : Config) (criteria : Option Config)
    (compareId : Bool) : Option ℤ :=
  if same then
    some 0
  else do
    let caveats ← minus (conf1 .configCaveat) (conf2 .configCaveat)
    if caveats ≠ 0 then
      return caveats
    else
      let types ← minus (conf1 .colorBufferType) (conf2 .colorBufferType)
      if types ≠ 0 then
        return types
      else
        compareSizes conf1 conf2 criteria compareId

end Egl
