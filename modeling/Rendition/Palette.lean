namespace Rendition.Palette

def pitched : List String :=
  ["Piano", "BrightPiano", "ElectricPiano", "HonkyTonk", "Harpsichord", "Clavinet", "Celesta",
    "Glockenspiel", "MusicBox", "Vibraphone", "Marimba", "Xylophone", "TubularBells", "Organ",
    "ChurchOrgan", "ReedOrgan", "Accordion", "Harmonica", "AcousticGuitar", "SteelGuitar",
    "JazzGuitar", "CleanGuitar", "OverdrivenGuitar", "DistortionGuitar", "AcousticBass",
    "ElectricBass", "FretlessBass", "SlapBass", "SynthBass", "Violin", "Viola", "Cello",
    "Contrabass", "TremoloStrings", "PizzicatoStrings", "Harp", "Timpani", "Strings",
    "SynthStrings", "Choir", "Voice", "Trumpet", "Trombone", "Tuba", "FrenchHorn", "Brass",
    "SopranoSax", "AltoSax", "TenorSax", "BaritoneSax", "Oboe", "EnglishHorn", "Bassoon",
    "Clarinet", "Piccolo", "Flute", "Recorder", "PanFlute", "Whistle", "Ocarina", "SquareLead",
    "SawLead", "Pad", "Sitar", "Banjo", "Shamisen", "Koto", "Kalimba", "Bagpipe", "Fiddle"]

def percussion : List String :=
  ["Drums", "BassDrum", "SnareDrum", "HiHat", "Cymbal", "Tom", "Clap", "Cowbell", "Tambourine",
    "Conga", "Bongo", "Woodblock", "Triangle", "Shaker"]

def hasPitched (name : String) : Bool := pitched.contains name

def hasPercussion (name : String) : Bool := percussion.contains name

def contains (name : String) : Bool := hasPitched name || hasPercussion name

end Rendition.Palette
