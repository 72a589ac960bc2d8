import Bitzer.Rbtree.Run
import Bitzer.Context.Shutdown
import Bitzer.Conf.RoundTrip
import Bitzer.Conf.Meaning
import Bitzer.Conf.Comments
import Bitzer.Conf.Spelling
import Bitzer.Conf.Quotes
import Bitzer.Conf.Argv
import Bitzer.Context.Drain
import Bitzer.Main.Streams
import Bitzer.Main.Inherit
import Bitzer.Rbtree.Links
import Bitzer.Rbtree.Footprint
import Bitzer.Log
import Bitzer.Conf.Load
import Bitzer.Conf.Leftover
import Bitzer.Conf.Locate
import Bitzer.Conf.Arrays
import Bitzer.Conf.Close
import Bitzer.Conf.Compose
import Bitzer.Conf.Layout
import Bitzer.Rbtree.Extremes
import Bitzer.Lists.Loops
import Bitzer.Context.Exit
import Bitzer.Main.Programs
import Bitzer.Main.Pidfile
import Bitzer.Main.Strings
import Bitzer.Main.Descriptors
import Bitzer.Context.Abstract
